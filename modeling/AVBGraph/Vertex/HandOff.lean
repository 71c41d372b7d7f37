import AVBGraph.Framework.Run
import Mathlib.Tactic

namespace AVBGraph

namespace HandOff

open Framework Function

/-- `tmp_entry_`; between delete[] and Clear it points to freed memory. -/
inductive Pointer
  | null
  | alive
  | freed
  deriving DecidableEq

structure Tvb where
  timestamp : Nat
  versionNum : Nat
  tmpEntry : Pointer
  deriving DecidableEq

/-- A writer inside the lock; MarkTvbActive has loaded the mask in `marking`. -/
inductive WriterPc
  | holding
  | marking (mask : Nat → Bool)

/-- The vertex lock: free or held by readers, held by a writer of an epoch, or by Transform of
an epoch before (`false`) or after PushVB. -/
inductive Lock
  | shared
  | writer (epoch : Nat) (pc : WriterPc)
  | transform (epoch : Nat) (pushed : Bool)

def Lock.isShared : Lock → Bool
  | .shared => true
  | _ => false

/-- A reader inside the lock: iterate_edges goes over the mask that it loaded once. -/
inductive ReaderPc
  | locked
  | scanning (mask : Nat → Bool)
  | walking (mask : Nat → Bool) (k : Nat)

/-- The steps of Transform that follow its unlock; both exits run the same ones. -/
inductive Stage
  | unlocked
  | deleted
  | cleared
  | loaded (mask : Nat → Bool)

/-- A vertex. `readers` lists those that hold the lock, `tail` is the Transform that has released
it, `pushed` are the epochs of the VersionBlocks, `current` is the last epoch that Transform took.
`active` records the bits that MarkTvbActive set and MarkTvbInactive of their epoch did not clear. -/
structure State where
  lock : Lock
  readers : List ReaderPc
  tail : Option (Nat × Stage)
  tvb : Nat → Tvb
  mask : Nat → Bool
  pushed : List Nat
  current : Nat
  active : Nat → Bool

inductive Event
  | readLock
  | readMask (i : Nat)
  | readWalk (i k : Nat)
  | readNext (i : Nat)
  | readUnlock (i : Nat)
  | writeLock (epoch : Nat)
  | writeOpen
  | writeMark
  | writeInsert
  | writeUnlock
  | transformLock (epoch : Nat)
  | pushVB
  | transformUnlock
  | deleteEntries
  | clear
  | loadMask
  | storeMask
  deriving DecidableEq

def start : State :=
  ⟨.shared, [], none, fun _ => ⟨0, 0, .null⟩, fun _ => false, [], 0, fun _ => false⟩

/-- One step. Writers are of later epochs, at most 15 ahead; one Transform runs at a time, in
ascending order, on a TmpVersionBlock with entries. -/
def step (s : State) : Event → Option State
  | .readLock =>
    match s.lock with
    | .shared => some { s with readers := s.readers ++ [.locked] }
    | _ => none
  | .readMask i =>
    match s.readers[i]? with
    | some .locked => some { s with readers := s.readers.set i (.scanning s.mask) }
    | _ => none
  | .readWalk i k =>
    match s.readers[i]? with
    | some (.scanning m) =>
      if m k then
        let m := update m k false
        let r := if (s.tvb k).tmpEntry = .null then ReaderPc.scanning m else .walking m k
        some { s with readers := s.readers.set i r }
      else none
    | _ => none
  | .readNext i =>
    match s.readers[i]? with
    | some (.walking m _) => some { s with readers := s.readers.set i (.scanning m) }
    | _ => none
  | .readUnlock i =>
    match s.readers[i]? with
    | some (.scanning _) => some { s with readers := s.readers.eraseIdx i }
    | _ => none
  | .writeLock epoch =>
    match s.lock with
    | .shared =>
      if s.readers.isEmpty ∧ s.current < epoch ∧ epoch < s.current + 16 then
        some { s with lock := .writer epoch .holding }
      else none
    | _ => none
  | .writeOpen =>
    match s.lock with
    | .writer epoch .holding =>
      let t := s.tvb (epoch % 16)
      if t.timestamp ≠ epoch then
        some { s with
          tvb := update s.tvb (epoch % 16) { t with timestamp := epoch, versionNum := 0 }
          lock := .writer epoch (.marking s.mask) }
      else none
    | _ => none
  | .writeMark =>
    match s.lock with
    | .writer epoch (.marking m) =>
      some { s with
        mask := update m (epoch % 16) true
        active := update s.active (epoch % 16) true
        lock := .writer epoch .holding }
    | _ => none
  | .writeInsert =>
    match s.lock with
    | .writer epoch .holding =>
      let t := s.tvb (epoch % 16)
      if t.timestamp = epoch then
        some { s with
          tvb := update s.tvb (epoch % 16) ⟨epoch, t.versionNum + 1, .alive⟩ }
      else none
    | _ => none
  | .writeUnlock =>
    match s.lock with
    | .writer _ .holding => some { s with lock := .shared }
    | _ => none
  | .transformLock epoch =>
    match s.lock with
    | .shared =>
      let t := s.tvb (epoch % 16)
      if s.readers.isEmpty ∧ s.tail.isNone ∧ s.current < epoch ∧ t.timestamp = epoch ∧
          0 < t.versionNum then
        some { s with lock := .transform epoch false, current := epoch }
      else none
    | _ => none
  | .pushVB =>
    match s.lock with
    | .transform epoch false =>
      some { s with lock := .transform epoch true, pushed := epoch :: s.pushed }
    | _ => none
  | .transformUnlock =>
    match s.lock with
    | .transform epoch true => some { s with lock := .shared, tail := some (epoch, .unlocked) }
    | _ => none
  | .deleteEntries =>
    match s.tail with
    | some (epoch, .unlocked) =>
      let t := s.tvb (epoch % 16)
      some { s with
        tvb := update s.tvb (epoch % 16) { t with tmpEntry := .freed }
        tail := some (epoch, .deleted) }
    | _ => none
  | .clear =>
    match s.tail with
    | some (epoch, .deleted) =>
      let t := s.tvb (epoch % 16)
      some { s with
        tvb := update s.tvb (epoch % 16) { t with versionNum := 0, tmpEntry := .null }
        tail := some (epoch, .cleared) }
    | _ => none
  | .loadMask =>
    match s.tail with
    | some (epoch, .cleared) => some { s with tail := some (epoch, .loaded s.mask) }
    | _ => none
  | .storeMask =>
    match s.tail with
    | some (epoch, .loaded m) =>
      some { s with
        mask := update m (epoch % 16) false
        active := update s.active (epoch % 16) false
        tail := none }
    | _ => none

/-- What the hand-off promises in a state. -/
structure Atomic (s : State) : Prop where
  once : s.lock = .shared → ∀ e ∈ s.pushed,
    ¬((s.tvb (e % 16)).timestamp = e ∧ 0 < (s.tvb (e % 16)).versionNum ∧ s.mask (e % 16) = true)
  walk : ∀ m k, ReaderPc.walking m k ∈ s.readers → (s.tvb k).tmpEntry ≠ .freed
  kept : ∀ k, s.active k = true → s.mask k = true

/-- Nobody takes the vertex lock between the unlock of a Transform and its store of the mask. -/
def Quiet (s : State) : Event → Prop
  | .readLock | .writeLock _ => s.tail = none
  | _ => True

/-- The lock excludes, and the tail of a Transform that nobody interrupts finds what it left. -/
structure Inv (s : State) : Prop where
  alone : s.tail ≠ none → s.lock = .shared ∧ s.readers = []
  exclusive : s.lock ≠ .shared → s.readers = []
  writer : ∀ e pc, s.lock = .writer e pc → s.current < e ∧ e < s.current + 16
  marking : ∀ e m, s.lock = .writer e (.marking m) → m = s.mask ∧ (s.tvb (e % 16)).timestamp = e ∧
    (s.tvb (e % 16)).versionNum = 0
  transform : ∀ e p, s.lock = .transform e p → s.current = e ∧ (p = true → e ∈ s.pushed) ∧
    (s.tvb (e % 16)).timestamp = e ∧ 0 < (s.tvb (e % 16)).versionNum
  tail : ∀ e st, s.tail = some (e, st) → s.current = e ∧ s.active (e % 16) = true ∧
    (s.tvb (e % 16)).timestamp = e
  loaded : ∀ e m, s.tail = some (e, .loaded m) → m = s.mask
  freed : ∀ k, (s.tvb k).tmpEntry = .freed → ∃ e, s.tail = some (e, .deleted) ∧ k = e % 16
  emptied : ∀ e st, s.tail = some (e, st) → st ≠ .unlocked → st ≠ .deleted →
    (s.tvb (e % 16)).versionNum = 0
  opened : ∀ k, s.current < (s.tvb k).timestamp → s.active k = true ∨
    ∃ e m, s.lock = .writer e (.marking m) ∧ k = e % 16
  filled : ∀ k, 0 < (s.tvb k).versionNum → s.active k = true
  kept : ∀ k, s.active k = true → s.mask k = true
  pushed : ∀ e ∈ s.pushed, e ≤ s.current ∧ ((s.tvb (e % 16)).timestamp = e →
    (s.tvb (e % 16)).versionNum = 0 ∨ s.lock = .transform e true ∨ ∃ st, s.tail = some (e, st))

section Step

variable {s t : State} {e : Event} {epoch : Nat} {m : Nat → Bool}

/-- Readers come and go only while the lock is shared and no Transform is in its tail. -/
theorem Inv.readers (h : Inv s) {rs : List ReaderPc} (hrs : s.readers = [] → rs = [] ∨
    (s.lock = .shared ∧ s.tail = none)) : Inv { s with readers := rs } := by
  refine { h with alone := fun htail => ?_, exclusive := fun hlock => ?_ }
  · obtain ⟨hshared, hnil⟩ := h.alone htail
    exact ⟨hshared, (hrs hnil).resolve_right fun hnone => htail hnone.2⟩
  · exact (hrs (h.exclusive hlock)).resolve_right fun hshared => hlock hshared.1

section Shared

/-- Under a shared lock no MarkTvbActive and no PushVB is under way. -/
theorem Inv.of_shared (h : Inv s) (hlock : s.lock = .shared) :
    (∀ k, s.current < (s.tvb k).timestamp → s.active k = true) ∧
      ∀ e ∈ s.pushed, e ≤ s.current ∧ ((s.tvb (e % 16)).timestamp = e →
        (s.tvb (e % 16)).versionNum = 0 ∨ ∃ st, s.tail = some (e, st)) := by
  refine ⟨fun k hk => (h.opened k hk).resolve_right fun hmark => ?_, fun e he => ?_⟩
  · obtain ⟨e, m, hw, -⟩ := hmark
    rw [hlock] at hw
    cases hw
  · obtain ⟨hle, hor⟩ := h.pushed e he
    refine ⟨hle, fun hts => (hor hts).imp_right fun htr => htr.resolve_left fun hl => ?_⟩
    rw [hlock] at hl
    cases hl

theorem Inv.writeLock (h : Inv s) (hlock : s.lock = .shared) (hnone : s.tail = none)
    (hr : s.readers = []) (he : s.current < epoch ∧ epoch < s.current + 16) :
    Inv { s with lock := .writer epoch .holding } := by
  obtain ⟨hopened, hpushed⟩ := h.of_shared hlock
  refine { h with
    alone := fun htail => absurd hnone htail
    exclusive := fun _ => hr
    writer := fun e pc hw => ?_
    marking := fun e m hw => by cases hw
    transform := fun e p htr => by cases htr
    opened := fun k hk => Or.inl (hopened k hk)
    pushed := fun e hp => ?_ }
  · cases hw
    exact he
  · obtain ⟨hle, hor⟩ := hpushed e hp
    exact ⟨hle, fun hts => (hor hts).imp_right Or.inr⟩

theorem Inv.transformLock (h : Inv s) (hlock : s.lock = .shared) (hr : s.readers = [])
    (hnone : s.tail = none) (he : s.current < epoch)
    (ht : (s.tvb (epoch % 16)).timestamp = epoch ∧ 0 < (s.tvb (epoch % 16)).versionNum) :
    Inv { s with lock := .transform epoch false, current := epoch } := by
  obtain ⟨hopened, hpushed⟩ := h.of_shared hlock
  refine { h with
    alone := fun htail => absurd hnone htail
    exclusive := fun _ => hr
    writer := fun e pc hw => by cases hw
    marking := fun e m hw => by cases hw
    transform := fun e p htr => ?_
    tail := fun e st htail => ?_
    opened := fun k hk => Or.inl (hopened k (he.trans hk))
    pushed := fun e hp => ?_ }
  · cases htr
    exact ⟨rfl, fun hfalse => absurd hfalse Bool.false_ne_true, ht⟩
  · have htail : s.tail = some (e, st) := htail
    rw [hnone] at htail
    cases htail
  · obtain ⟨hle, hor⟩ := hpushed e hp
    exact ⟨hle.trans he.le, fun hts => (hor hts).imp_right Or.inr⟩

end Shared

section Writer

/-- A writer keeps the readers and Transform out. -/
theorem Inv.of_writer (h : Inv s) {pc : WriterPc} (hlock : s.lock = .writer epoch pc) :
    s.tail = none ∧ s.readers = [] ∧ ∀ e ∈ s.pushed, e ≤ s.current ∧
      ((s.tvb (e % 16)).timestamp = e → (s.tvb (e % 16)).versionNum = 0) := by
  have hne : s.lock ≠ .shared := by simp [hlock]
  have hnone : s.tail = none := by
    by_contra htail
    exact hne (h.alone htail).1
  refine ⟨hnone, h.exclusive hne, fun e he => ?_⟩
  obtain ⟨hle, hor⟩ := h.pushed e he
  refine ⟨hle, fun hts => (hor hts).resolve_right fun hheld => ?_⟩
  rcases hheld with hl | ⟨st, htail⟩
  · rw [hlock] at hl
    cases hl
  · rw [hnone] at htail
    cases htail

theorem Inv.writeOpen (h : Inv s) (hlock : s.lock = .writer epoch .holding) : Inv { s with
    tvb := update s.tvb (epoch % 16)
      { s.tvb (epoch % 16) with timestamp := epoch, versionNum := 0 }
    lock := .writer epoch (.marking s.mask) } := by
  obtain ⟨hnone, hr, hpushed⟩ := h.of_writer hlock
  refine { h with
    alone := fun htail => absurd hnone htail
    exclusive := fun _ => hr
    writer := fun e pc hw => ?writer
    marking := fun e m hw => ?marking
    transform := fun e p htr => by cases htr
    tail := fun e st htail => by simp [hnone] at htail
    freed := fun k hk => ?freed
    emptied := fun e st htail => by simp [hnone] at htail
    opened := fun k hk => ?opened
    filled := fun k hk => ?filled
    pushed := fun e hp => ⟨(hpushed e hp).1, fun hts => Or.inl ?pushed⟩ }
  case writer =>
    cases hw
    exact h.writer epoch .holding hlock
  case marking =>
    cases hw
    simp
  case freed =>
    apply h.freed k
    grind [update_apply]
  case opened =>
    by_cases hks : k = epoch % 16
    · exact Or.inr ⟨epoch, s.mask, rfl, hks⟩
    · simp only [update_of_ne hks] at hk
      refine Or.inl ((h.opened k hk).resolve_right fun hmark => ?_)
      obtain ⟨e, m, hw, -⟩ := hmark
      rw [hlock] at hw
      cases hw
  case filled =>
    apply h.filled k
    grind [update_apply]
  case pushed =>
    have := hpushed e hp
    grind [update_apply]

/-- The store of MarkTvbActive is based on the current mask, as nobody else stores under the
write lock. -/
theorem Inv.writeMark (h : Inv s) (hlock : s.lock = .writer epoch (.marking m)) : Inv { s with
    mask := update m (epoch % 16) true
    active := update s.active (epoch % 16) true
    lock := .writer epoch .holding } := by
  obtain ⟨hnone, hr, hpushed⟩ := h.of_writer hlock
  obtain ⟨rfl, -⟩ := h.marking epoch m hlock
  refine { h with
    alone := fun htail => absurd hnone htail
    exclusive := fun _ => hr
    writer := fun e pc hw => ?writer
    marking := fun e m hw => by cases hw
    transform := fun e p htr => by cases htr
    tail := fun e st htail => by simp [hnone] at htail
    loaded := fun e m htail => by simp [hnone] at htail
    opened := fun k hk => Or.inl ?opened
    filled := fun k hk => ?filled
    kept := fun k hk => ?kept
    pushed := fun e hp => ⟨(hpushed e hp).1, fun hts => Or.inl ((hpushed e hp).2 hts)⟩ }
  case writer =>
    cases hw
    exact h.writer epoch _ hlock
  case opened =>
    have := h.opened k hk
    grind [update_apply]
  case filled =>
    have := h.filled k hk
    grind [update_apply]
  case kept =>
    have := h.kept k
    grind [update_apply]

theorem Inv.writeInsert (h : Inv s) (hlock : s.lock = .writer epoch .holding)
    (hts : (s.tvb (epoch % 16)).timestamp = epoch) : Inv { s with
      tvb := update s.tvb (epoch % 16) ⟨epoch, (s.tvb (epoch % 16)).versionNum + 1, .alive⟩ } := by
  obtain ⟨hnone, hr, hpushed⟩ := h.of_writer hlock
  have hlt := (h.writer epoch .holding hlock).1
  -- the entries of a later epoch are in a TmpVersionBlock that is marked
  have hactive : s.active (epoch % 16) = true := by
    have := h.opened (epoch % 16)
    grind
  refine { h with
    marking := fun e m hw => by simp [hlock] at hw
    transform := fun e p htr => by simp [hlock] at htr
    tail := fun e st htail => by simp [hnone] at htail
    freed := fun k hk => ?freed
    emptied := fun e st htail => by simp [hnone] at htail
    opened := fun k hk => ?opened
    filled := fun k hk => ?filled
    pushed := fun e hp => ⟨(hpushed e hp).1, fun hts => Or.inl ?pushed⟩ }
  case freed =>
    apply h.freed k
    grind [update_apply]
  case opened =>
    apply h.opened k
    grind [update_apply]
  case filled =>
    have := h.filled k
    grind [update_apply]
  case pushed =>
    have := hpushed e hp
    grind [update_apply]

theorem Inv.writeUnlock (h : Inv s) (hlock : s.lock = .writer epoch .holding) :
    Inv { s with lock := .shared } := by
  obtain ⟨hnone, hr, hpushed⟩ := h.of_writer hlock
  refine { h with
    alone := fun htail => absurd hnone htail
    exclusive := fun hne => absurd rfl hne
    writer := fun e pc hw => by cases hw
    marking := fun e m hw => by cases hw
    transform := fun e p htr => by cases htr
    opened := fun k hk => Or.inl ((h.opened k hk).resolve_right fun hmark => ?_)
    pushed := fun e hp => ⟨(hpushed e hp).1, fun hts => Or.inl ((hpushed e hp).2 hts)⟩ }
  obtain ⟨e, m, hw, -⟩ := hmark
  rw [hlock] at hw
  cases hw

end Writer

section Transform

/-- A Transform inside the lock keeps everybody else out; only its own epoch can be pushed with its
entries still there. -/
theorem Inv.of_transform (h : Inv s) {p : Bool} (hlock : s.lock = .transform epoch p) :
    s.tail = none ∧ s.readers = [] ∧ (∀ k, s.current < (s.tvb k).timestamp → s.active k = true) ∧
      ∀ e ∈ s.pushed, e ≤ s.current ∧ ((s.tvb (e % 16)).timestamp = e →
        (s.tvb (e % 16)).versionNum = 0 ∨ e = epoch) := by
  have hne : s.lock ≠ .shared := by simp [hlock]
  have hnone : s.tail = none := by
    by_contra htail
    exact hne (h.alone htail).1
  refine ⟨hnone, h.exclusive hne, fun k hk => ?_, fun e he => ?_⟩
  · refine (h.opened k hk).resolve_right fun hmark => ?_
    obtain ⟨e, m, hw, -⟩ := hmark
    rw [hlock] at hw
    cases hw
  · obtain ⟨hle, hor⟩ := h.pushed e he
    refine ⟨hle, fun hts => (hor hts).imp_right fun hheld => ?_⟩
    rcases hheld with hl | ⟨st, htail⟩
    · rw [hlock] at hl
      cases hl
      rfl
    · rw [hnone] at htail
      cases htail

theorem Inv.pushVB (h : Inv s) (hlock : s.lock = .transform epoch false) :
    Inv { s with lock := .transform epoch true, pushed := epoch :: s.pushed } := by
  obtain ⟨hnone, hr, hopened, hpushed⟩ := h.of_transform hlock
  obtain ⟨hcur, -, hts, hnum⟩ := h.transform epoch false hlock
  refine { h with
    alone := fun htail => absurd hnone htail
    exclusive := fun _ => hr
    writer := fun e pc hw => by cases hw
    marking := fun e m hw => by cases hw
    transform := fun e p htr => ?transform
    opened := fun k hk => Or.inl (hopened k hk)
    pushed := fun e hp => ?pushed }
  case transform =>
    cases htr
    exact ⟨hcur, fun _ => List.mem_cons_self, hts, hnum⟩
  case pushed =>
    rcases List.mem_cons.mp hp with rfl | hp
    · exact ⟨hcur.ge, fun _ => Or.inr (Or.inl rfl)⟩
    · refine ⟨(hpushed e hp).1, fun hts => ((hpushed e hp).2 hts).imp_right fun heq => ?_⟩
      exact Or.inl (heq ▸ rfl)

theorem Inv.transformUnlock (h : Inv s) (hlock : s.lock = .transform epoch true) :
    Inv { s with lock := .shared, tail := some (epoch, .unlocked) } := by
  obtain ⟨-, hr, hopened, hpushed⟩ := h.of_transform hlock
  obtain ⟨hcur, -, hts, hnum⟩ := h.transform epoch true hlock
  refine { h with
    alone := fun _ => ⟨rfl, hr⟩
    exclusive := fun hne => absurd rfl hne
    writer := fun e pc hw => by cases hw
    marking := fun e m hw => by cases hw
    transform := fun e p htr => by cases htr
    tail := fun e st htail => ?tail
    loaded := fun e m htail => by cases htail
    freed := fun k hk => ?freed
    emptied := fun e st htail hne => ?emptied
    opened := fun k hk => Or.inl (hopened k hk)
    pushed := fun e hp => ?pushed }
  case tail =>
    cases htail
    exact ⟨hcur, h.filled _ hnum, hts⟩
  case freed =>
    obtain ⟨e, htail, -⟩ := h.freed k hk
    simp [(h.of_transform hlock).1] at htail
  case emptied =>
    cases htail
    exact absurd rfl hne
  case pushed =>
    -- the pushed epoch whose entries are still there is the one of this Transform
    refine ⟨(hpushed e hp).1, fun hts => ((hpushed e hp).2 hts).imp_right fun heq => ?_⟩
    exact Or.inr ⟨.unlocked, by rw [heq]⟩

end Transform

section Tail

/-- The tail of a Transform is the only one of its epoch, outside the lock. -/
theorem Inv.of_tail (h : Inv s) {st : Stage} (htail : s.tail = some (epoch, st)) :
    s.lock = .shared ∧ s.readers = [] ∧
      (∀ k, s.current < (s.tvb k).timestamp → s.active k = true) ∧
      ∀ e ∈ s.pushed, e ≤ s.current ∧ ((s.tvb (e % 16)).timestamp = e →
        (s.tvb (e % 16)).versionNum = 0 ∨ e = epoch) := by
  obtain ⟨hlock, hr⟩ := h.alone (by simp [htail])
  obtain ⟨hopened, hpushed⟩ := h.of_shared hlock
  refine ⟨hlock, hr, hopened, fun e he => ⟨(hpushed e he).1, fun hts => ?_⟩⟩
  refine ((hpushed e he).2 hts).imp_right fun hst => ?_
  obtain ⟨st', hst'⟩ := hst
  rw [htail] at hst'
  cases hst'
  rfl

theorem Inv.deleteEntries (h : Inv s) (htail : s.tail = some (epoch, .unlocked)) : Inv { s with
    tvb := update s.tvb (epoch % 16) { s.tvb (epoch % 16) with tmpEntry := .freed }
    tail := some (epoch, .deleted) } := by
  obtain ⟨hlock, hr, hopened, hpushed⟩ := h.of_tail htail
  obtain ⟨hcur, hactive, hts⟩ := h.tail epoch _ htail
  have hsame : ∀ k, (update s.tvb (epoch % 16)
      { s.tvb (epoch % 16) with tmpEntry := .freed } k).timestamp = (s.tvb k).timestamp ∧
    (update s.tvb (epoch % 16)
      { s.tvb (epoch % 16) with tmpEntry := .freed } k).versionNum = (s.tvb k).versionNum := by
    intro k
    grind [update_apply]
  refine { h with
    alone := fun _ => ⟨hlock, hr⟩
    marking := fun e m hw => by simp [hlock] at hw
    transform := fun e p htr => by simp [hlock] at htr
    tail := fun e st hst => ?tail
    loaded := fun e m hst => by cases hst
    freed := fun k hk => ?freed
    emptied := fun e st hst _ hne => ?emptied
    opened := fun k hk => Or.inl (hopened k ((hsame k).1 ▸ hk))
    filled := fun k hk => h.filled k ((hsame k).2 ▸ hk)
    pushed := fun e hp => ⟨(hpushed e hp).1, fun hts => ?pushed⟩ }
  case tail =>
    cases hst
    exact ⟨hcur, hactive, (hsame _).1.trans hts⟩
  case freed =>
    refine ⟨epoch, rfl, ?_⟩
    by_contra hne
    simp only [update_of_ne hne] at hk
    obtain ⟨e, hst, -⟩ := h.freed k hk
    rw [htail] at hst
    cases hst
  case emptied =>
    cases hst
    exact absurd rfl hne
  case pushed =>
    rw [(hsame _).1] at hts
    rw [(hsame _).2]
    refine ((hpushed e hp).2 hts).imp_right fun heq => ?_
    exact Or.inr ⟨.deleted, by rw [heq]⟩

theorem Inv.clear (h : Inv s) (htail : s.tail = some (epoch, .deleted)) : Inv { s with
    tvb := update s.tvb (epoch % 16) { s.tvb (epoch % 16) with versionNum := 0, tmpEntry := .null }
    tail := some (epoch, .cleared) } := by
  obtain ⟨hlock, hr, hopened, hpushed⟩ := h.of_tail htail
  obtain ⟨hcur, hactive, hts⟩ := h.tail epoch _ htail
  refine { h with
    alone := fun _ => ⟨hlock, hr⟩
    marking := fun e m hw => by simp [hlock] at hw
    transform := fun e p htr => by simp [hlock] at htr
    tail := fun e st hst => ?tail
    loaded := fun e m hst => by cases hst
    freed := fun k hk => ?freed
    emptied := fun e st hst _ _ => ?emptied
    opened := fun k hk => Or.inl (hopened k ?opened)
    filled := fun k hk => h.filled k ?filled
    pushed := fun e hp => ⟨(hpushed e hp).1, fun hts => Or.inl ?pushed⟩ }
  case tail =>
    cases hst
    simp [hcur, hactive, hts]
  case freed =>
    have hfreed := h.freed k
    grind [update_apply]
  case emptied =>
    cases hst
    simp
  case opened =>
    grind [update_apply]
  case filled =>
    grind [update_apply]
  case pushed =>
    -- what was left of the pushed epochs were the entries of this one
    have := hpushed e hp
    grind [update_apply]

theorem Inv.loadMask (h : Inv s) (htail : s.tail = some (epoch, .cleared)) :
    Inv { s with tail := some (epoch, .loaded s.mask) } := by
  obtain ⟨hlock, hr, hopened, hpushed⟩ := h.of_tail htail
  refine { h with
    alone := fun _ => ⟨hlock, hr⟩
    tail := fun e st hst => ?tail
    loaded := fun e m hst => ?loaded
    freed := fun k hk => ?freed
    emptied := fun e st hst _ _ => ?emptied
    pushed := fun e hp => ⟨(hpushed e hp).1, fun hts => ?pushed⟩ }
  case tail =>
    cases hst
    exact h.tail epoch _ htail
  case loaded =>
    cases hst
    rfl
  case freed =>
    obtain ⟨e, hst, -⟩ := h.freed k hk
    rw [htail] at hst
    cases hst
  case emptied =>
    cases hst
    exact h.emptied epoch _ htail Stage.noConfusion Stage.noConfusion
  case pushed =>
    refine ((hpushed e hp).2 hts).imp_right fun heq => ?_
    exact Or.inr ⟨.loaded s.mask, by rw [heq]⟩

/-- In a quiet tail the mask did not change since its load. -/
theorem Inv.storeMask (h : Inv s) (htail : s.tail = some (epoch, .loaded m)) : Inv { s with
    mask := update m (epoch % 16) false
    active := update s.active (epoch % 16) false
    tail := none } := by
  obtain ⟨hlock, hr, hopened, hpushed⟩ := h.of_tail htail
  obtain ⟨hcur, -, hts⟩ := h.tail epoch _ htail
  have hempty := h.emptied epoch _ htail Stage.noConfusion Stage.noConfusion
  obtain rfl := h.loaded epoch m htail
  refine { h with
    alone := fun hne => absurd rfl hne
    marking := fun e m hw => by simp [hlock] at hw
    tail := fun e st hst => by cases hst
    loaded := fun e m hst => by cases hst
    freed := fun k hk => ?freed
    emptied := fun e st hst => by cases hst
    opened := fun k hk => Or.inl ?opened
    filled := fun k hk => ?filled
    kept := fun k hk => ?kept
    pushed := fun e hp => ⟨(hpushed e hp).1, fun hts => Or.inl ?pushed⟩ }
  case freed =>
    obtain ⟨e, hst, -⟩ := h.freed k hk
    rw [htail] at hst
    cases hst
  case opened =>
    have := hopened k hk
    grind [update_apply]
  case filled =>
    have := h.filled k hk
    grind [update_apply]
  case kept =>
    have := h.kept k
    grind [update_apply]
  case pushed =>
    have := (hpushed e hp).2 hts
    grind

end Tail

/-- A reader inside the lock keeps Transform and the writers out. -/
theorem Inv.of_reader (h : Inv s) {i : Nat} {r : ReaderPc} (hi : s.readers[i]? = some r) :
    s.readers ≠ [] ∧ s.lock = .shared ∧ s.tail = none := by
  have hne : s.readers ≠ [] := List.ne_nil_of_mem (List.mem_of_getElem? hi)
  refine ⟨hne, ?_, ?_⟩
  · by_contra hlock
    exact hne (h.exclusive hlock)
  · by_contra htail
    exact hne (h.alone htail).2

theorem inv_step (h : Inv s) (hq : Quiet s e) (hstep : step s e = some t) : Inv t := by
  cases e with
  | readLock =>
    simp only [step] at hstep
    split at hstep
    · next hlock =>
      obtain rfl := Option.some.inj hstep
      exact h.readers fun _ => Or.inr ⟨hlock, hq⟩
    · cases hstep
  | readMask i =>
    simp only [step] at hstep
    split at hstep
    · next hi =>
      obtain rfl := Option.some.inj hstep
      exact h.readers fun hnil => absurd hnil (h.of_reader hi).1
    · cases hstep
  | readWalk i k =>
    simp only [step] at hstep
    split at hstep
    · next m hi =>
      split_ifs at hstep <;>
        (obtain rfl := Option.some.inj hstep
         exact h.readers fun hnil => absurd hnil (h.of_reader hi).1)
    · cases hstep
  | readNext i =>
    simp only [step] at hstep
    split at hstep
    · next hi =>
      obtain rfl := Option.some.inj hstep
      exact h.readers fun hnil => absurd hnil (h.of_reader hi).1
    · cases hstep
  | readUnlock i =>
    simp only [step] at hstep
    split at hstep
    · next hi =>
      obtain rfl := Option.some.inj hstep
      exact h.readers fun hnil => absurd hnil (h.of_reader hi).1
    · cases hstep
  | writeLock epoch =>
    simp only [step] at hstep
    split at hstep
    · next hlock =>
      split_ifs at hstep with hc
      obtain rfl := Option.some.inj hstep
      exact h.writeLock hlock hq (List.isEmpty_iff.mp hc.1) hc.2
    · cases hstep
  | writeOpen =>
    simp only [step] at hstep
    split at hstep
    · next epoch hlock =>
      split_ifs at hstep
      obtain rfl := Option.some.inj hstep
      exact h.writeOpen hlock
    · cases hstep
  | writeMark =>
    simp only [step] at hstep
    split at hstep
    · next epoch m hlock =>
      obtain rfl := Option.some.inj hstep
      exact h.writeMark hlock
    · cases hstep
  | writeInsert =>
    simp only [step] at hstep
    split at hstep
    · next epoch hlock =>
      split_ifs at hstep with hts
      obtain rfl := Option.some.inj hstep
      exact h.writeInsert hlock hts
    · cases hstep
  | writeUnlock =>
    simp only [step] at hstep
    split at hstep
    · next epoch hlock =>
      obtain rfl := Option.some.inj hstep
      exact h.writeUnlock hlock
    · cases hstep
  | transformLock epoch =>
    simp only [step] at hstep
    split at hstep
    · next hlock =>
      split_ifs at hstep with hc
      obtain rfl := Option.some.inj hstep
      obtain ⟨hr, hnone, he, ht⟩ := hc
      exact h.transformLock hlock (List.isEmpty_iff.mp hr) (Option.isNone_iff_eq_none.mp hnone) he ht
    · cases hstep
  | pushVB =>
    simp only [step] at hstep
    split at hstep
    · next epoch hlock =>
      obtain rfl := Option.some.inj hstep
      exact h.pushVB hlock
    · cases hstep
  | transformUnlock =>
    simp only [step] at hstep
    split at hstep
    · next epoch hlock =>
      obtain rfl := Option.some.inj hstep
      exact h.transformUnlock hlock
    · cases hstep
  | deleteEntries =>
    simp only [step] at hstep
    split at hstep
    · next epoch htail =>
      obtain rfl := Option.some.inj hstep
      exact h.deleteEntries htail
    · cases hstep
  | clear =>
    simp only [step] at hstep
    split at hstep
    · next epoch htail =>
      obtain rfl := Option.some.inj hstep
      exact h.clear htail
    · cases hstep
  | loadMask =>
    simp only [step] at hstep
    split at hstep
    · next epoch htail =>
      obtain rfl := Option.some.inj hstep
      exact h.loadMask htail
    · cases hstep
  | storeMask =>
    simp only [step] at hstep
    split at hstep
    · next epoch m htail =>
      obtain rfl := Option.some.inj hstep
      exact h.storeMask htail
    · cases hstep

end Step

section Run

variable {s t : State} {e : Event}

theorem inv_start : Inv start := by
  constructor <;> simp [start]

/-- No Transform is in its tail: nothing is exposed and nothing is freed. -/
theorem Inv.atomic (h : Inv s) (hnone : s.tail = none) : Atomic s := by
  refine ⟨fun hlock e he ⟨hts, hnum, _⟩ => ?_, fun m k _ hfreed => ?_, h.kept⟩
  · rcases (h.pushed e he).2 hts with hz | hl | ⟨st, hst⟩
    · omega
    · rw [hlock] at hl
      cases hl
    · rw [hnone] at hst
      cases hst
  · obtain ⟨e, htail, -⟩ := h.freed k hfreed
    rw [hnone] at htail
    cases htail

/-- Right after its unlock a Transform has its VersionBlock pushed, and its TmpVersionBlock is
still there and marked. -/
theorem Inv.exposed (h : Inv s) (hstep : step s .transformUnlock = some t) : ¬Atomic t := by
  simp only [step] at hstep
  split at hstep
  · next epoch hlock =>
    obtain rfl := Option.some.inj hstep
    obtain ⟨-, hpushed, hts, hnum⟩ := h.transform epoch true hlock
    intro hatomic
    exact hatomic.once rfl epoch (hpushed rfl) ⟨hts, hnum, h.kept _ (h.filled _ hnum)⟩
  · cases hstep

theorem tail_step (hnone : s.tail = none) (hne : e ≠ .transformUnlock)
    (hstep : step s e = some t) : t.tail = none := by
  cases e <;> simp only [step, hnone] at hstep <;> grind

theorem quiet_of_none (hnone : s.tail = none) : Quiet s e := by
  cases e <;> first | exact hnone | trivial

/-- The hand-off is atomic in every state of a run if and only if no Transform of the run has
released the vertex lock. -/
theorem atomic_iff {es : List Event} (hrun : exec step start es = some s) :
    Along step (fun _ e => e ≠ .transformUnlock) start es ↔
      ∀ fs u, fs <+: es → exec step start fs = some u → Atomic u := by
  refine along_iff_prefixes (I := fun s => Inv s ∧ s.tail = none) ?_ ⟨inv_start, rfl⟩
    (inv_start.atomic rfl) (along_true ..) hrun
  rintro s e t ⟨hinv, hnone⟩ - - hstep
  have hnext : e ≠ .transformUnlock → Inv t ∧ t.tail = none := fun hne =>
    ⟨inv_step hinv (quiet_of_none hnone) hstep, tail_step hnone hne hstep⟩
  refine ⟨⟨fun hne => (hnext hne).1.atomic (hnext hne).2, ?_⟩, hnext⟩
  rintro hatomic rfl
  exact hinv.exposed hstep hatomic

/-- When nobody takes the lock between a Transform's unlock and its store of the mask, no reader
meets a freed array or an epoch twice, and no bit is lost. -/
theorem quiet_handOff {es : List Event} (hok : Along step Quiet start es)
    (hrun : exec step start es = some s) : (s.readers ≠ [] → Atomic s) ∧
      (∀ m k, ReaderPc.walking m k ∈ s.readers → (s.tvb k).tmpEntry ≠ .freed) ∧
      ∀ k, s.active k = true → s.mask k = true := by
  have hinv := invariant_of_step (fun _ _ _ h hq hstep => inv_step h hq hstep) inv_start hok hrun
  have hreader : s.readers ≠ [] → Atomic s := by
    intro hne
    apply hinv.atomic
    by_contra htail
    exact hne (hinv.alone htail).2
  exact ⟨hreader, fun m k hw => (hreader (List.ne_nil_of_mem hw)).walk m k hw, hinv.kept⟩

/-- A write of epoch 1, one of epoch 2 and a reader that walks the entries of both. -/
def twoWrites : List Event :=
  [.writeLock 1, .writeOpen, .writeMark, .writeInsert, .writeUnlock,
    .writeLock 2, .writeOpen, .writeMark, .writeInsert, .writeUnlock,
    .readLock, .readMask 0, .readWalk 0 1, .readNext 0, .readWalk 0 2]

theorem atomic_iff_twoWrites : ∃ s, exec step start twoWrites = some s ∧
    ∀ fs u, fs <+: twoWrites → exec step start fs = some u → Atomic u := by
  obtain ⟨s, hrun, -⟩ : ∃ s, exec step start twoWrites = some s ∧ s.readers.length = 1 := by
    refine exists_exec ?_
    decide +kernel
  have halong : Along step (fun _ e => e ≠ .transformUnlock) start twoWrites := by decide +kernel
  exact ⟨s, hrun, (atomic_iff hrun).mp halong⟩

/-- One write and its Transform: a reader that enters right after the unlock sees epoch 1 both in
the VersionBlock and in the TmpVersionBlock. -/
theorem unlocked_exposed : ¬∀ (es : List Event) (s : State), exec step start es = some s →
    Atomic s := by
  intro hall
  obtain ⟨s, hrun, hlock, hpushed, hts, hnum, hmask⟩ : ∃ s, exec step start
      [.writeLock 1, .writeOpen, .writeMark, .writeInsert, .writeUnlock, .transformLock 1, .pushVB,
        .transformUnlock, .readLock] = some s ∧ s.lock.isShared = true ∧
      s.pushed = [1] ∧ (s.tvb 1).timestamp = 1 ∧ 0 < (s.tvb 1).versionNum ∧ s.mask 1 = true := by
    refine exists_exec ?_
    decide +kernel
  have hshared : s.lock = .shared := by
    cases hl : s.lock with
    | shared => rfl
    | _ => simp [hl, Lock.isShared] at hlock
  exact (hall _ s hrun).once hshared 1 (by simp [hpushed]) ⟨hts, hnum, hmask⟩

end Run

end HandOff

end AVBGraph
