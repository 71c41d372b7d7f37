import AVBGraph.Framework.Run
import AVBGraph.Framework.Interleaving
import Mathlib.Algebra.BigOperators.Group.Finset.Basic
import Mathlib.Algebra.Order.BigOperators.Group.Finset
import Mathlib.Tactic

namespace AVBGraph.RWSpinLock

open Framework Function

def excl : BitVec 64 := 1#64 <<< 63

/-- A thread between its accesses of `data`: in the loops of lock and lock_shared (`sharing` behind
the load and the assert of try_lock_shared), with the lock, and in unlockExcl and unlock_shared
behind their asserts. -/
inductive Thread
  | idle
  | locking
  | loading
  | sharing (before : BitVec 64)
  | exclusive
  | storing
  | shared
  | decrementing
  deriving DecidableEq

/-- The word with the threads that use it. -/
structure State (ι : Type*) where
  data : BitVec 64
  thread : ι → Thread

def init (ι : Type*) : State ι := ⟨0#64, fun _ => .idle⟩

/-- Calls, and the next access inside one. A weak exchange may fail on the expected value too. -/
inductive Action
  | lock
  | lockShared
  | tryUpgrade (spurious : Bool)
  | unlock
  | unlockShared
  | access (spurious : Bool)
  deriving DecidableEq

/-- data.compare_exchange_weak. -/
def compareExchangeWeak (data expected desired : BitVec 64) (spurious : Bool) :
    Option (BitVec 64) :=
  if data = expected ∧ spurious = false then some desired else none

section Step

variable {ι : Type*} [DecidableEq ι]

def State.set (s : State ι) (t : ι) (x : Thread) : State ι := ⟨s.data, update s.thread t x⟩

/-- An exchange of the thread `t`, which goes on in `x` when it succeeds. -/
def State.exchange (s : State ι) (t : ι) (expected desired : BitVec 64) (spurious : Bool)
    (x failed : Thread) : State ι :=
  (compareExchangeWeak s.data expected desired spurious).elim (s.set t failed) fun data =>
    ⟨data, update s.thread t x⟩

/-- A thread inside a call goes to the next access, one outside calls. `none` is a failed assert, or
an action that the thread is not at. -/
def step (s : State ι) (e : ι × Action) : Option (State ι) :=
  let t := e.1
  match s.thread t, e.2 with
  | .idle, .lock => some (s.set t .locking)
  | .idle, .lockShared => some (s.set t .loading)
  | .locking, .access spurious => some (s.exchange t 0#64 excl spurious .exclusive .locking)
  | .loading, .access _ =>
    let before := s.data &&& ~~~excl
    if before.toNat < 100 then some (s.set t (.sharing before)) else none
  | .sharing before, .access spurious =>
    some (s.exchange t before (before + 1#64) spurious .shared .loading)
  | .shared, .tryUpgrade spurious => some (s.exchange t 1#64 excl spurious .exclusive .shared)
  | .exclusive, .unlock => if s.data = excl then some (s.set t .storing) else none
  | .storing, .access _ => some ⟨0#64, update s.thread t .idle⟩
  | .shared, .unlockShared => if s.data ≠ 0#64 then some (s.set t .decrementing) else none
  | .decrementing, .access _ => some ⟨s.data - 1#64, update s.thread t .idle⟩
  | _, _ => none

/-- The actions that a thread is at. -/
def AtAction (x : Thread) (a : Action) : Prop :=
  match x with
  | .idle => a = .lock ∨ a = .lockShared
  | .exclusive => a = .unlock
  | .shared => a = .unlockShared ∨ ∃ spurious, a = .tryUpgrade spurious
  | _ => ∃ spurious, a = .access spurious

end Step

/-! ### What the lock is for -/

inductive Mode
  | free
  | shared
  | exclusive
  deriving DecidableEq

def Thread.mode : Thread → Mode
  | .exclusive => .exclusive
  | .storing => .exclusive
  | .shared => .shared
  | .decrementing => .shared
  | _ => .free

section Lock

variable {ι : Type*} [DecidableEq ι] [Fintype ι]

/-- What a readers-writer lock, held by every party in a mode, allows `t` to hold it in next. -/
def Allowed (l : ι → Mode) (t : ι) : Mode → Prop
  | .exclusive => ∀ u, u ≠ t → l u = .free
  | .shared => ∀ u, l u ≠ .exclusive
  | .free => True

instance (l : ι → Mode) (t : ι) : (m : Mode) → Decidable (Allowed l t m)
  | .exclusive => inferInstanceAs (Decidable (∀ u, u ≠ t → l u = .free))
  | .shared => inferInstanceAs (Decidable (∀ u, l u ≠ .exclusive))
  | .free => .isTrue trivial

def lockStep (l : ι → Mode) (e : ι × Mode) : Option (ι → Mode) :=
  if Allowed l e.1 e.2 then some (update l e.1 e.2) else none

def Exclusion (l : ι → Mode) : Prop := ∀ t, l t = .exclusive → ∀ u, u ≠ t → l u = .free

def readers (l : ι → Mode) : Nat := (Finset.univ.filter fun t => l t = .shared).card

/-- The word of a lock. -/
def word (l : ι → Mode) : BitVec 64 :=
  if ∃ t, l t = .exclusive then excl else BitVec.ofNat 64 (readers l)

def modes (s : State ι) : ι → Mode := fun t => (s.thread t).mode

end Lock

section Words

variable {ι : Type*} [Fintype ι] {l : ι → Mode} {t : ι} {b : BitVec 64}

theorem word_of_exclusive (h : l t = .exclusive) : word l = excl := if_pos ⟨t, h⟩

theorem word_of_none (h : ∀ t, l t ≠ .exclusive) : word l = BitVec.ofNat 64 (readers l) :=
  if_neg fun ⟨t, ht⟩ => h t ht

theorem readers_eq_zero : readers l = 0 ↔ ∀ t, l t ≠ .shared := by
  simp [readers, Finset.filter_eq_empty_iff]

theorem free_of_readers (hnone : ∀ t, l t ≠ .exclusive) (hzero : readers l = 0) (t : ι) :
    l t = .free := by
  have hshared := readers_eq_zero.mp hzero t
  have hexclusive := hnone t
  cases hl : l t <;> simp_all

/-- A word below 100 counts the readers. -/
theorem readers_of_word (hle : readers l ≤ 100) (hb : b.toNat < 100) (h : word l = b) :
    (∀ t, l t ≠ .exclusive) ∧ readers l = b.toNat := by
  have hnone : ∀ t, l t ≠ .exclusive := by
    intro t ht
    rw [word_of_exclusive ht] at h
    subst h
    exact absurd hb (by decide)
  rw [word_of_none hnone] at h
  refine ⟨hnone, ?_⟩
  rw [← h, BitVec.toNat_ofNat, Nat.mod_eq_of_lt (by omega)]

theorem free_of_word (hle : readers l ≤ 100) (h : word l = 0#64) (t : ι) : l t = .free := by
  obtain ⟨hnone, hzero⟩ := readers_of_word hle (by decide) h
  exact free_of_readers hnone hzero t

theorem word_of_free (h : ∀ t, l t = .free) : word l = 0#64 := by
  have hnone : ∀ t, l t ≠ .exclusive := fun t => by simp [h t]
  have hzero : readers l = 0 := readers_eq_zero.mpr fun t => by simp [h t]
  rw [word_of_none hnone, hzero]

/-- What try_lock_shared keeps of the word. -/
theorem toNat_word_and (hle : readers l ≤ 100) :
    (word l &&& ~~~excl).toNat = if ∃ t, l t = .exclusive then 0 else readers l := by
  have hmask : (~~~excl).toNat = 2 ^ 63 - 1 := by decide
  unfold word
  split_ifs
  · decide
  · rw [BitVec.toNat_and, hmask, Nat.and_two_pow_sub_one_eq_mod, BitVec.toNat_ofNat]
    omega

variable [DecidableEq ι]

theorem readers_update (l : ι → Mode) (t : ι) (m : Mode) :
    readers (update l t m) + (if l t = .shared then 1 else 0) =
      readers l + if m = .shared then 1 else 0 := by
  simp only [readers, Finset.card_filter]
  exact sum_update_add l (fun m => if m = .shared then 1 else 0) t m

/-- The word 1 is that of one reader. -/
theorem free_of_one (hle : readers l ≤ 100) (h : word l = 1#64) (ht : l t = .shared) (u : ι)
    (hu : u ≠ t) : l u = .free := by
  obtain ⟨hnone, hone⟩ := readers_of_word hle (by decide) h
  have hupdate := readers_update l t .free
  have hzero : readers (update l t .free) = 0 := by
    simp only [ht, if_true, hone] at hupdate
    simpa using hupdate
  have hnone' : ∀ v, update l t .free v ≠ .exclusive :=
    (forall_update (P := fun _ (m : Mode) => m ≠ .exclusive)).mpr ⟨nofun, fun v _ => hnone v⟩
  have hfree := free_of_readers hnone' hzero u
  rwa [update_of_ne hu] at hfree

end Words

section Exclusion

variable {ι : Type*} {l : ι → Mode} {t : ι} {m : Mode}

theorem forall_ne_update [DecidableEq ι] {m' : Mode} (hm : m ≠ m') (h : ∀ u, u ≠ t → l u ≠ m')
    (u : ι) : update l t m u ≠ m' :=
  (forall_update (P := fun _ k => k ≠ m')).mpr ⟨hm, h⟩ u

theorem Exclusion.allowed_self (h : Exclusion l) (t : ι) : Allowed l t (l t) := by
  cases ht : l t with
  | free => trivial
  | shared =>
    intro u hu
    have hne : t ≠ u := by
      rintro rfl
      rw [ht] at hu
      cases hu
    have hfree := h u hu t hne
    rw [ht] at hfree
    cases hfree
  | exclusive => exact h t ht

theorem Exclusion.none_of_shared (h : Exclusion l) (ht : l t = .shared) (u : ι) :
    l u ≠ .exclusive := by
  have hself := h.allowed_self t
  rw [ht] at hself
  exact hself u

theorem Exclusion.update [DecidableEq ι] (h : Exclusion l) (hallowed : Allowed l t m) :
    Exclusion (update l t m) := by
  intro u hu v hv
  by_cases hut : u = t
  · subst u
    rw [update_self] at hu
    subst m
    rw [update_of_ne hv]
    exact hallowed v hv
  · rw [update_of_ne hut] at hu
    by_cases hvt : v = t
    · subst v
      rw [update_self]
      cases m with
      | free => rfl
      | shared => exact absurd hu (hallowed u)
      | exclusive => rw [hallowed u hut] at hu; cases hu
    · rw [update_of_ne hvt]
      exact h u hu v hv

end Exclusion

section Run

variable {ι : Type*} [Fintype ι] {s s' : State ι} {t : ι}

omit [Fintype ι] in
theorem modes_of_thread {x : Thread} (ht : s.thread t = x) : modes s t = x.mode := by
  rw [modes, ht]

/-- The word belongs to the modes of the threads, and no more than 100 of them read. -/
structure Sound (s : State ι) : Prop where
  exclusion : Exclusion (modes s)
  data_eq : s.data = word (modes s)
  readers_le : readers (modes s) ≤ 100
  before_lt : ∀ t b, s.thread t = .sharing b → b.toNat < 100

theorem sound_init : Sound (init ι) where
  exclusion := fun _ ht => nomatch ht
  data_eq := (word_of_free fun _ => rfl).symm
  readers_le := by
    have hzero : readers (modes (init ι)) = 0 := readers_eq_zero.mpr fun _ => nofun
    exact hzero.trans_le (Nat.zero_le _)
  before_lt := fun _ _ ht => nomatch ht

variable [DecidableEq ι] {x : Thread} {data : BitVec 64}

omit [Fintype ι] in
theorem modes_update : modes ⟨data, update s.thread t x⟩ = update (modes s) t x.mode := by
  funext u
  unfold modes
  by_cases hu : u = t
  · subst u; simp
  · simp [hu]

/-- A step to a state that is sound, which the lock allows. -/
def Follows (s : State ι) (t : ι) (s' : State ι) : Prop :=
  Sound s' ∧ lockStep (modes s) (t, (s'.thread t).mode) = some (modes s')

theorem Sound.move (h : Sound s) (hallowed : Allowed (modes s) t x.mode)
    (hdata : data = word (update (modes s) t x.mode))
    (hreaders : readers (update (modes s) t x.mode) ≤ 100)
    (hbefore : ∀ b, x = .sharing b → b.toNat < 100) :
    Follows s t ⟨data, update s.thread t x⟩ := by
  refine ⟨⟨?_, ?_, ?_, ?_⟩, ?_⟩
  · rw [modes_update]
    exact h.exclusion.update hallowed
  · rw [modes_update]
    exact hdata
  · rw [modes_update]
    exact hreaders
  · intro u b hu
    by_cases hut : u = t
    · subst u
      exact hbefore b (by simpa using hu)
    · exact h.before_lt u b (by simpa [hut] using hu)
  · rw [modes_update]
    change lockStep (modes s) (t, (update s.thread t x t).mode) = _
    rw [update_self]
    exact if_pos hallowed

/-- An access that leaves the word and the mode of the thread. -/
theorem Sound.stay (h : Sound s) (hmode : x.mode = (s.thread t).mode)
    (hbefore : ∀ b, x = .sharing b → b.toNat < 100) : Follows s t (s.set t x) := by
  have hsame : update (modes s) t x.mode = modes s := hmode ▸ update_eq_self t (modes s)
  refine h.move ?_ ?_ ?_ hbefore
  · rw [hmode]
    exact h.exclusion.allowed_self t
  · rw [hsame]
    exact h.data_eq
  · rw [hsame]
    exact h.readers_le

/-- The first of lock's and tryUpgrade's exchanges that succeeds. -/
theorem Sound.becomeExclusive (h : Sound s) (hothers : ∀ u, u ≠ t → modes s u = .free) :
    Follows s t ⟨excl, update s.thread t .exclusive⟩ := by
  have hword : word (update (modes s) t .exclusive) = excl :=
    word_of_exclusive (update_self t .exclusive (modes s))
  have hzero : readers (update (modes s) t .exclusive) = 0 := by
    refine readers_eq_zero.mpr (forall_ne_update nofun fun u hu => ?_)
    rw [hothers u hu]
    nofun
  exact h.move hothers hword.symm (hzero.trans_le (Nat.zero_le _)) nofun

/-- try_lock_shared exchanges the word that it has read. -/
theorem Sound.becomeShared (h : Sound s) {b : BitVec 64} (ht : s.thread t = .sharing b)
    (hb : s.data = b) : Follows s t ⟨b + 1#64, update s.thread t .shared⟩ := by
  have hlt := h.before_lt t b ht
  obtain ⟨hnone, hcount⟩ := readers_of_word h.readers_le hlt (h.data_eq.symm.trans hb)
  have hone : readers (update (modes s) t .shared) = b.toNat + 1 := by
    have hupdate := readers_update (modes s) t .shared
    have hfree : modes s t = .free := modes_of_thread ht
    simpa [hfree, hcount] using hupdate
  have hnone' : ∀ u, update (modes s) t .shared u ≠ .exclusive :=
    forall_ne_update nofun fun u _ => hnone u
  refine h.move hnone ?_ (hone.trans_le hlt) nofun
  change _ = word (update (modes s) t .shared)
  rw [word_of_none hnone', hone, BitVec.ofNat_add, BitVec.ofNat_toNat, BitVec.setWidth_eq]

/-- The store of unlockExcl. -/
theorem Sound.release (h : Sound s) (ht : s.thread t = .storing) :
    Follows s t ⟨0#64, update s.thread t .idle⟩ := by
  have hmode : modes s t = .exclusive := modes_of_thread ht
  have hfree : ∀ u, update (modes s) t .free u = .free :=
    (forall_update (P := fun _ (m : Mode) => m = .free)).mpr ⟨rfl, h.exclusion t hmode⟩
  have hzero : readers (update (modes s) t .free) = 0 := by
    refine readers_eq_zero.mpr fun u => ?_
    rw [hfree u]
    nofun
  exact h.move trivial (word_of_free hfree).symm (hzero.trans_le (Nat.zero_le _)) nofun

/-- The decrement of unlock_shared. -/
theorem Sound.releaseShared (h : Sound s) (ht : s.thread t = .decrementing) :
    Follows s t ⟨s.data - 1#64, update s.thread t .idle⟩ := by
  have hmode : modes s t = .shared := modes_of_thread ht
  have hnone := h.exclusion.none_of_shared hmode
  have hupdate : readers (update (modes s) t .free) + 1 = readers (modes s) := by
    simpa [hmode] using readers_update (modes s) t .free
  have hnone' : ∀ u, update (modes s) t .free u ≠ .exclusive :=
    forall_ne_update nofun fun u _ => hnone u
  have hle := h.readers_le
  refine h.move trivial ?_ ?_ nofun
  · change _ = word (update (modes s) t .free)
    rw [h.data_eq, word_of_none hnone, word_of_none hnone', ← hupdate, BitVec.ofNat_add,
      BitVec.add_sub_cancel]
  · change readers (update (modes s) t .free) ≤ 100
    omega

/-- An exchange changes the word that was expected, or nothing but the place of the thread. -/
theorem Sound.exchange (h : Sound s) {expected desired : BitVec 64} {spurious : Bool}
    {failed : Thread} (hsuccess : s.data = expected → Follows s t ⟨desired, update s.thread t x⟩)
    (hmode : failed.mode = (s.thread t).mode) (hbefore : ∀ b, failed ≠ .sharing b) :
    Follows s t (s.exchange t expected desired spurious x failed) := by
  unfold State.exchange compareExchangeWeak
  split_ifs with hsame
  · exact hsuccess hsame.1
  · exact h.stay hmode fun b hb => absurd hb (hbefore b)

theorem Sound.step (h : Sound s) {a : Action} (hs : step s (t, a) = some s') :
    Follows s t s' := by
  cases ht : s.thread t with
  | idle =>
    cases a <;> simp only [RWSpinLock.step, ht, Option.some.injEq, reduceCtorEq] at hs
    all_goals
      subst hs
      exact h.stay (by rw [ht]; rfl) nofun
  | locking =>
    cases a <;> simp only [RWSpinLock.step, ht, Option.some.injEq, reduceCtorEq] at hs
    subst hs
    refine h.exchange (fun hzero => h.becomeExclusive fun u _ => ?_) (by rw [ht]) nofun
    exact free_of_word h.readers_le (h.data_eq.symm.trans hzero) u
  | loading =>
    cases a <;> simp only [RWSpinLock.step, ht, reduceCtorEq] at hs
    obtain ⟨hlt, hs⟩ := Option.ite_none_right_eq_some.mp hs
    obtain rfl := Option.some.inj hs
    refine h.stay (by rw [ht]; rfl) fun b hb => ?_
    cases hb
    exact hlt
  | sharing before =>
    cases a <;> simp only [RWSpinLock.step, ht, Option.some.injEq, reduceCtorEq] at hs
    subst hs
    exact h.exchange (h.becomeShared ht) (by rw [ht]; rfl) nofun
  | exclusive =>
    cases a <;> simp only [RWSpinLock.step, ht, reduceCtorEq] at hs
    obtain ⟨-, hs⟩ := Option.ite_none_right_eq_some.mp hs
    obtain rfl := Option.some.inj hs
    exact h.stay (by rw [ht]; rfl) nofun
  | storing =>
    cases a <;> simp only [RWSpinLock.step, ht, Option.some.injEq, reduceCtorEq] at hs
    subst hs
    exact h.release ht
  | shared =>
    cases a <;> simp only [RWSpinLock.step, ht, Option.some.injEq, reduceCtorEq] at hs
    case tryUpgrade =>
      subst hs
      refine h.exchange (fun hone => h.becomeExclusive fun u hu => ?_) (by rw [ht]) nofun
      have hmode : modes s t = .shared := modes_of_thread ht
      exact free_of_one h.readers_le (h.data_eq.symm.trans hone) hmode u hu
    case unlockShared =>
      obtain ⟨-, hs⟩ := Option.ite_none_right_eq_some.mp hs
      obtain rfl := Option.some.inj hs
      exact h.stay (by rw [ht]; rfl) nofun
  | decrementing =>
    cases a <;> simp only [RWSpinLock.step, ht, Option.some.injEq, reduceCtorEq] at hs
    subst hs
    exact h.releaseShared ht

/-- A run of the word is a run of the lock: every access takes, keeps or gives back what its thread
holds. -/
theorem Sound.run (h : Sound s) {es : List (ι × Action)}
    (hrun : exec RWSpinLock.step s es = some s') :
    Sound s' ∧ ∃ ops : List (ι × Mode), ops.map Prod.fst = es.map Prod.fst ∧
      exec lockStep (modes s) ops = some (modes s') := by
  induction es generalizing s with
  | nil =>
    obtain rfl := Option.some.inj hrun
    exact ⟨h, [], rfl, rfl⟩
  | cons e es ih =>
    obtain ⟨s₁, hs₁, hrest⟩ := Option.bind_eq_some_iff.mp hrun
    obtain ⟨hsound, hop⟩ := h.step hs₁
    obtain ⟨hsound', ops, hthreads, hops⟩ := ih hsound hrest
    refine ⟨hsound', (e.1, (s₁.thread e.1).mode) :: ops, ?_, ?_⟩
    · rw [List.map_cons, List.map_cons, hthreads]
    · rw [exec, hop, Option.bind_some, hops]

/-- Only the assert on the number of readers can fail. -/
theorem Sound.step_eq_none_iff (h : Sound s) {a : Action} (hat : AtAction (s.thread t) a) :
    RWSpinLock.step s (t, a) = none ↔ s.thread t = .loading ∧ readers (modes s) = 100 := by
  cases ht : s.thread t with
  | idle =>
    rw [ht] at hat
    obtain rfl | rfl := hat <;> simp only [RWSpinLock.step, ht, reduceCtorEq, false_and]
  | loading =>
    rw [ht] at hat
    obtain ⟨spurious, rfl⟩ := hat
    have hload := toNat_word_and h.readers_le
    have hle := h.readers_le
    simp only [RWSpinLock.step, ht, true_and, ite_eq_right_iff, reduceCtorEq, imp_false, h.data_eq,
      hload]
    split_ifs with hexclusive
    · obtain ⟨u, hu⟩ := hexclusive
      have hzero : readers (modes s) = 0 :=
        readers_eq_zero.mpr fun v hv => h.exclusion.none_of_shared hv u hu
      omega
    · omega
  | exclusive =>
    rw [ht] at hat
    obtain rfl := hat
    have hmode : modes s t = .exclusive := modes_of_thread ht
    have hword : s.data = excl := h.data_eq.trans (word_of_exclusive hmode)
    simp only [RWSpinLock.step, ht, hword, if_true, reduceCtorEq, false_and]
  | shared =>
    rw [ht] at hat
    have hword : s.data ≠ 0#64 := by
      intro hzero
      have hfree := free_of_word h.readers_le (h.data_eq.symm.trans hzero) t
      rw [modes, ht] at hfree
      cases hfree
    obtain rfl | ⟨spurious, rfl⟩ := hat
    · simp only [RWSpinLock.step, ht, if_pos hword, reduceCtorEq, false_and]
    · simp only [RWSpinLock.step, ht, reduceCtorEq, false_and]
  | _ =>
    rw [ht] at hat
    obtain ⟨spurious, rfl⟩ := hat
    simp only [RWSpinLock.step, ht, reduceCtorEq, false_and]

/-- An attempt of lock that does not fail spuriously takes the lock when it is free. -/
theorem Sound.lock_iff (h : Sound s) (ht : s.thread t = .locking) :
    (∃ s', RWSpinLock.step s (t, .access false) = some s' ∧ s'.thread t = .exclusive) ↔
      ∀ u, modes s u = .free := by
  have hstep : RWSpinLock.step s (t, .access false) =
      some (s.exchange t 0#64 excl false .exclusive .locking) := by
    simp only [RWSpinLock.step, ht]
  rw [hstep]
  constructor
  · rintro ⟨s', hs', hexclusive⟩
    obtain rfl := Option.some.inj hs'
    unfold State.exchange compareExchangeWeak at hexclusive
    split_ifs at hexclusive with hzero
    · exact free_of_word h.readers_le (h.data_eq.symm.trans hzero.1)
    · simp [State.set] at hexclusive
  · intro hfree
    refine ⟨_, rfl, ?_⟩
    have hzero : s.data = 0#64 := h.data_eq.trans (word_of_free hfree)
    simp [State.exchange, compareExchangeWeak, hzero]

/-- In every interleaving the word is a readers-writer lock: the accesses are those of a lock that
excludes, the word is the one of its holders, no assert fails but the one on 100 readers, and lock
returns from a free lock at its next exchange that does not fail spuriously. -/
theorem rwSpinLock_spec {es : List (ι × Action)} (hrun : exec step (init ι) es = some s) :
    (∃ ops : List (ι × Mode), ops.map Prod.fst = es.map Prod.fst ∧
      exec lockStep (fun _ => .free) ops = some (modes s)) ∧
    Exclusion (modes s) ∧ s.data = word (modes s) ∧
    (∀ t a, AtAction (s.thread t) a →
      (step s (t, a) = none ↔ s.thread t = .loading ∧ readers (modes s) = 100)) ∧
    ∀ t, s.thread t = .locking →
      ((∃ s', step s (t, .access false) = some s' ∧ s'.thread t = .exclusive) ↔
        ∀ u, modes s u = .free) := by
  obtain ⟨hsound, hops⟩ := sound_init.run hrun
  exact ⟨hops, hsound.exclusion, hsound.data_eq, fun t a => hsound.step_eq_none_iff,
    fun t => hsound.lock_iff⟩

end Run

/-- Two readers, of which one upgrades when the other has left. -/
def upgraded : List (Bool × Action) :=
  [(false, .lockShared), (true, .lockShared), (false, .access false), (true, .access false),
    (true, .access false), (false, .access false), (false, .access false), (false, .access false),
    (false, .tryUpgrade false), (true, .unlockShared), (true, .access false),
    (false, .tryUpgrade false)]

theorem rwSpinLock_spec_upgraded : ∃ s, exec step (init Bool) upgraded = some s ∧
    s.data = excl ∧ Exclusion (modes s) ∧ modes s false = .exclusive := by
  obtain ⟨s, hs, hdata, hmode⟩ : ∃ s, exec step (init Bool) upgraded = some s ∧
      s.data = excl ∧ modes s false = .exclusive := by
    refine exists_exec ?_
    decide +kernel
  exact ⟨s, hs, hdata, (rwSpinLock_spec hs).2.1, hmode⟩

/-! ### A lock that nobody shares -/

section Mutex

variable {ι : Type*} [DecidableEq ι] {h : Option ι} {s s' : State ι} {t : ι}

/-- The lock as `mtx_` is used in the SPIN_LOCK build: its holder. -/
def mutexStep (h : Option ι) (e : ι × Mode) : Option (Option ι) :=
  match e.2 with
  | .exclusive => if h = none ∨ h = some e.1 then some (some e.1) else none
  | .shared => none
  | .free => some (if h = some e.1 then none else h)

def ofHolder (h : Option ι) : ι → Mode := fun t => if h = some t then .exclusive else .free

theorem ofHolder_eq_free : ofHolder h t = .free ↔ h ≠ some t := by
  unfold ofHolder
  split_ifs with ht <;> simp [ht]

theorem allowed_ofHolder : Allowed (ofHolder h) t .exclusive ↔ h = none ∨ h = some t := by
  simp only [Allowed, ofHolder_eq_free]
  cases h with
  | none => simp
  | some u =>
    simp only [ne_eq, Option.some.injEq, reduceCtorEq, false_or]
    exact ⟨fun hne => not_not.mp fun hut => hne u hut rfl, fun hut v hv huv => hv (huv ▸ hut)⟩

theorem update_ofHolder_exclusive (hfree : h = none ∨ h = some t) :
    update (ofHolder h) t .exclusive = ofHolder (some t) := by
  funext u
  by_cases hu : u = t
  · subst u
    simp [ofHolder]
  · have hne : h ≠ some u := by
      rintro rfl
      rcases hfree with hnone | hsome
      · cases hnone
      · exact hu (Option.some.inj hsome)
    rw [update_of_ne hu, ofHolder_eq_free.mpr hne,
      ofHolder_eq_free.mpr fun htu => hu (Option.some.inj htu).symm]

theorem update_ofHolder_free :
    update (ofHolder h) t .free = ofHolder (if h = some t then none else h) := by
  funext u
  by_cases hu : u = t
  · subst u
    rw [update_self]
    refine (ofHolder_eq_free.mpr ?_).symm
    split_ifs with ht
    · nofun
    · exact ht
  · rw [update_of_ne hu]
    split_ifs with ht
    · subst ht
      simp [ofHolder, Ne.symm hu]
    · rfl

theorem lockStep_ofHolder [Fintype ι] {m : Mode} (hm : m ≠ .shared) :
    lockStep (ofHolder h) (t, m) = (mutexStep h (t, m)).map ofHolder := by
  cases m with
  | free =>
    have hallowed : Allowed (ofHolder h) t .free := trivial
    rw [lockStep, if_pos hallowed, update_ofHolder_free]
    rfl
  | shared => exact absurd rfl hm
  | exclusive =>
    by_cases hfree : h = none ∨ h = some t
    · rw [lockStep, if_pos (allowed_ofHolder.mpr hfree), update_ofHolder_exclusive hfree,
        mutexStep, if_pos hfree]
      rfl
    · rw [lockStep, if_neg (mt allowed_ofHolder.mp hfree), mutexStep, if_neg hfree]
      rfl

/-- A thread that has not called lock_shared. -/
def Unshared (x : Thread) : Prop :=
  x = .idle ∨ x = .locking ∨ x = .exclusive ∨ x = .storing

omit [DecidableEq ι] in
theorem Unshared.mode_ne {x : Thread} (hx : Unshared x) : x.mode ≠ .shared := by
  obtain rfl | rfl | rfl | rfl := hx <;> nofun

theorem Unshared.step {a : Action} (hall : ∀ u, Unshared (s.thread u)) (ha : a ≠ .lockShared)
    (hs : step s (t, a) = some s') (u : ι) : Unshared (s'.thread u) := by
  have hset : ∀ {x : Thread} {data : BitVec 64}, Unshared x →
      Unshared ((⟨data, update s.thread t x⟩ : State ι).thread u) := fun hx =>
    (forall_update (P := fun _ x => Unshared x)).mpr ⟨hx, fun v _ => hall v⟩ u
  obtain ht | ht | ht | ht := hall t
  · cases a <;> simp only [RWSpinLock.step, ht, Option.some.injEq, reduceCtorEq] at hs
    case lock =>
      subst hs
      exact hset (.inr (.inl rfl))
    case lockShared => exact absurd rfl ha
  · cases a <;> simp only [RWSpinLock.step, ht, Option.some.injEq, reduceCtorEq] at hs
    subst hs
    unfold State.exchange compareExchangeWeak
    split_ifs
    · exact hset (.inr (.inr (.inl rfl)))
    · exact hset (.inr (.inl rfl))
  · cases a <;> simp only [RWSpinLock.step, ht, reduceCtorEq] at hs
    obtain ⟨-, hs⟩ := Option.ite_none_right_eq_some.mp hs
    obtain rfl := Option.some.inj hs
    exact hset (.inr (.inr (.inr rfl)))
  · cases a <;> simp only [RWSpinLock.step, ht, Option.some.injEq, reduceCtorEq] at hs
    subst hs
    exact hset (.inl rfl)

variable [Fintype ι] {es : List (ι × Action)}

/-- A run without lock_shared is a run of the holder. -/
theorem Sound.run_mutex (hsound : Sound s) (hall : ∀ u, Unshared (s.thread u))
    (hmodes : modes s = ofHolder h) (hcalls : ∀ e ∈ es, e.2 ≠ .lockShared)
    (hrun : exec RWSpinLock.step s es = some s') :
    (∀ u, Unshared (s'.thread u)) ∧ ∃ ops h', ops.map Prod.fst = es.map Prod.fst ∧
      exec mutexStep h ops = some h' ∧ modes s' = ofHolder h' := by
  induction es generalizing s h with
  | nil =>
    obtain rfl := Option.some.inj hrun
    exact ⟨hall, [], h, rfl, rfl, hmodes⟩
  | cons e es ih =>
    obtain ⟨s₁, hs₁, hrest⟩ := Option.bind_eq_some_iff.mp hrun
    obtain ⟨hcall, hcalls⟩ := List.forall_mem_cons.mp hcalls
    have hall₁ := Unshared.step hall hcall hs₁
    obtain ⟨hsound₁, hop⟩ := hsound.step hs₁
    rw [hmodes, lockStep_ofHolder (hall₁ e.1).mode_ne] at hop
    obtain ⟨h₁, hop₁, hmodes₁⟩ := Option.map_eq_some_iff.mp hop
    obtain ⟨hall', ops, h', hthreads, hops, hmodes'⟩ :=
      ih hsound₁ hall₁ hmodes₁.symm hcalls hrest
    refine ⟨hall', (e.1, (s₁.thread e.1).mode) :: ops, h', ?_, ?_, hmodes'⟩
    · rw [List.map_cons, List.map_cons, hthreads]
    · rw [exec, hop₁, Option.bind_some, hops]

/-- In every interleaving of lock and unlock the word says whether there is a holder, the holders
change as those of a mutex, and no assert fails. -/
theorem mtx_spec (hcalls : ∀ e ∈ es, e.2 ≠ .lockShared)
    (hrun : exec step (init ι) es = some s) :
    ∃ ops holder, ops.map Prod.fst = es.map Prod.fst ∧ exec mutexStep none ops = some holder ∧
      (∀ t, (s.thread t).mode = .exclusive ↔ holder = some t) ∧
      s.data = (if holder = none then 0#64 else excl) ∧
      ∀ t a, AtAction (s.thread t) a → (step s (t, a)).isSome := by
  have hsound := (sound_init.run hrun).1
  have hstart : modes (init ι) = ofHolder none := rfl
  obtain ⟨hall, ops, holder, hthreads, hops, hmodes⟩ :=
    sound_init.run_mutex (fun _ => .inl rfl) hstart hcalls hrun
  have hexclusive (t : ι) : modes s t = .exclusive ↔ holder = some t := by
    rw [hmodes, ofHolder]
    split_ifs with ht <;> simp [ht]
  refine ⟨ops, holder, hthreads, hops, hexclusive, ?_, fun t a hat => ?_⟩
  · rw [hsound.data_eq]
    cases holder with
    | none => exact word_of_free fun t => by rw [hmodes]; rfl
    | some t => exact word_of_exclusive ((hexclusive t).mpr rfl)
  · refine Option.isSome_iff_ne_none.mpr fun hnone => ?_
    have hload := ((hsound.step_eq_none_iff hat).mp hnone).1
    obtain ht | ht | ht | ht := hall t <;> rw [ht] at hload <;> cases hload

end Mutex

/-- The second thread waits for the first one's unlock. -/
def contended : List (Bool × Action) :=
  [(false, .lock), (true, .lock), (false, .access false), (true, .access false), (false, .unlock),
    (true, .access false), (false, .access false), (true, .access true), (true, .access false)]

theorem mtx_spec_contended : ∃ s ops, exec step (init Bool) contended = some s ∧
    ops.map Prod.fst = contended.map Prod.fst ∧ exec mutexStep none ops = some (some true) ∧
      s.data = excl := by
  obtain ⟨s, hs, hmode⟩ : ∃ s, exec step (init Bool) contended = some s ∧
      (s.thread true).mode = .exclusive := by
    refine exists_exec ?_
    decide +kernel
  obtain ⟨ops, holder, hthreads, hops, hiff, hdata, -⟩ := mtx_spec (by decide) hs
  obtain rfl := (hiff true).mp hmode
  exact ⟨s, ops, hs, hthreads, hops, hdata⟩

end AVBGraph.RWSpinLock
