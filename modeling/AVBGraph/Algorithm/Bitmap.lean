import AVBGraph.Framework.Run
import AVBGraph.Framework.Bounded
import AVBGraph.Framework.Interleaving
import Mathlib.Algebra.BigOperators.Group.Finset.Basic
import Mathlib.Algebra.Order.BigOperators.Group.Finset
import Mathlib.Data.Fintype.BigOperators
import Mathlib.Tactic

namespace AVBGraph.Gapbs

open Framework Function

/-- gapbs::Bitmap: the words from `start_` to `end_`. -/
structure Bitmap where
  numWords : Nat
  start : Nat → BitVec 64

namespace Bitmap

def kBitsPerWord : Nat := 64

def wordOffset (n : Nat) : Nat := n / kBitsPerWord

def bitOffset (n : Nat) : Nat := n &&& (kBitsPerWord - 1)

/-- The constructor leaves the words as the memory was. -/
def new (memory : Nat → BitVec 64) (size : Nat) : Bitmap :=
  ⟨(size + kBitsPerWord - 1) / kBitsPerWord, memory⟩

def reset (b : Bitmap) : Bitmap :=
  { b with start := fun i => if i < b.numWords then 0#64 else b.start i }

/-- The operand `(uint64_t) 1l << bit_offset(pos)`. -/
def mask (pos : Nat) : BitVec 64 := 1#64 <<< bitOffset pos

def getBit (b : Bitmap) (pos : Nat) : Bool :=
  ((b.start (wordOffset pos) >>> bitOffset pos) &&& 1#64) ≠ 0#64

/-- A thread inside its calls: the positions it still sets, and the `old_val` of the first one
once it is loaded. -/
structure Setter where
  todo : List Nat
  oldVal : Option (BitVec 64)

/-- The threads of a parallel loop over one bitmap. -/
structure Setters (ι : Type*) where
  bitmap : Bitmap
  setter : ι → Setter

variable {ι : Type*}

/-- The loop before its first step. -/
def Setters.init (b : Bitmap) (work : ι → List Nat) : Setters ι := ⟨b, fun t => ⟨work t, none⟩⟩

/-- One shared access of a thread, the load or the store of set_bit; with `atomic` the store is the
compare_and_swap of set_bit_atomic, and a lost one starts the loop again. A thread with nothing
left to set and an access outside of the words are no step. -/
def step [DecidableEq ι] (atomic : Bool) (s : Setters ι) (t : ι) : Option (Setters ι) :=
  match s.setter t with
  | ⟨[], _⟩ => none
  | ⟨pos :: todo, none⟩ =>
    (load s.bitmap.numWords s.bitmap.start (wordOffset pos)).map fun word =>
      ⟨s.bitmap, update s.setter t ⟨pos :: todo, some word⟩⟩
  | ⟨pos :: todo, some oldVal⟩ =>
    (load s.bitmap.numWords s.bitmap.start (wordOffset pos)).bind fun word =>
      if atomic ∧ word ≠ oldVal then
        some ⟨s.bitmap, update s.setter t ⟨pos :: todo, none⟩⟩
      else
        (store s.bitmap.numWords s.bitmap.start (wordOffset pos) (oldVal ||| mask pos)).map
          fun start => ⟨⟨s.bitmap.numWords, start⟩, update s.setter t ⟨todo, none⟩⟩

/-- The positions whose calls have returned. -/
def finished (work : ι → List Nat) (s : Setters ι) (t : ι) : List Nat :=
  (work t).take ((work t).length - (s.setter t).todo.length)

/-! ### Bits and words -/

theorem bitOffset_eq (n : Nat) : bitOffset n = n % 64 := Nat.and_two_pow_sub_one_eq_mod n 6

theorem wordOffset_lt {memory : Nat → BitVec 64} {size pos : Nat} (h : pos < size) :
    wordOffset pos < (new memory size).numWords := by
  unfold wordOffset new kBitsPerWord
  simp only
  omega

theorem getBit_eq (b : Bitmap) (pos : Nat) :
    b.getBit pos = (b.start (wordOffset pos)).getLsbD (bitOffset pos) := by
  unfold getBit
  rw [BitVec.and_one_eq_setWidth_ofBool_getLsbD, BitVec.getLsbD_ushiftRight, Nat.add_zero]
  cases (b.start (wordOffset pos)).getLsbD (bitOffset pos) <;> rfl

theorem getLsbD_mask (pos q : Nat) :
    (mask pos).getLsbD (bitOffset q) = decide (bitOffset q = bitOffset pos) := by
  have hq : bitOffset q < 64 := by rw [bitOffset_eq]; omega
  have hpos : bitOffset pos < 64 := by rw [bitOffset_eq]; omega
  unfold mask
  rw [BitVec.getLsbD_shiftLeft]
  simp only [BitVec.getLsbD_one]
  grind

/-- Word and bit determine the position. -/
theorem offsets_inj {p q : Nat} (hword : wordOffset q = wordOffset p)
    (hbit : bitOffset q = bitOffset p) : q = p := by
  rw [bitOffset_eq, bitOffset_eq] at hbit
  unfold wordOffset kBitsPerWord at hword
  omega

/-- The store of a word with one more bit. -/
theorem getBit_store (b : Bitmap) (pos q : Nat) :
    getBit ⟨b.numWords, update b.start (wordOffset pos) (b.start (wordOffset pos) ||| mask pos)⟩ q =
      (b.getBit q || decide (q = pos)) := by
  rw [getBit_eq, getBit_eq]
  simp only
  by_cases hword : wordOffset q = wordOffset pos
  · rw [hword, update_self, BitVec.getLsbD_or, getLsbD_mask]
    congr 1
    have : bitOffset q = bitOffset pos ↔ q = pos :=
      ⟨offsets_inj hword, fun h => by rw [h]⟩
    simp [this]
  · have hne : q ≠ pos := fun h => hword (by rw [h])
    rw [update_of_ne hword]
    simp [hne]

theorem getBit_reset {b : Bitmap} {q : Nat} (h : wordOffset q < b.numWords) :
    b.reset.getBit q = false := by
  rw [getBit_eq]
  simp [reset, h]

/-! ### What a run has set -/

variable {s s' : Setters ι} {t : ι} {work : ι → List Nat} {b : Bitmap}

/-- The bits are those of the bitmap at the start and those of the calls that have returned. -/
structure Exact (b : Bitmap) (work : ι → List Nat) (s : Setters ι) : Prop where
  size : s.bitmap.numWords = b.numWords
  left : ∀ t, (s.setter t).todo <:+ work t
  bits : ∀ q, s.bitmap.getBit q = true ↔ b.getBit q = true ∨ ∃ t, q ∈ finished work s t

theorem exact_init (b : Bitmap) (work : ι → List Nat) : Exact b work (.init b work) where
  size := rfl
  left := fun _ => List.suffix_rfl
  bits := by simp [Setters.init, finished]

theorem finished_congr {bitmap : Bitmap} {f : ι → Setter} (h : ∀ u, (f u).todo = (s.setter u).todo) :
    finished work ⟨bitmap, f⟩ = finished work s := by
  funext u
  simp [finished, h u]

/-! ### What one access does -/

variable [DecidableEq ι] {atomic : Bool}

/-- The three kinds of steps. -/
inductive Access (atomic : Bool) (s : Setters ι) (t : ι) : Setters ι → Prop
  | loads {pos : Nat} {todo : List Nat} (hpos : wordOffset pos < s.bitmap.numWords)
      (ht : s.setter t = ⟨pos :: todo, none⟩) :
      Access atomic s t ⟨s.bitmap,
        update s.setter t ⟨pos :: todo, some (s.bitmap.start (wordOffset pos))⟩⟩
  | retries {pos : Nat} {todo : List Nat} {oldVal : BitVec 64}
      (ht : s.setter t = ⟨pos :: todo, some oldVal⟩) (hatomic : atomic = true)
      (hlost : s.bitmap.start (wordOffset pos) ≠ oldVal) :
      Access atomic s t ⟨s.bitmap, update s.setter t ⟨pos :: todo, none⟩⟩
  | stores {pos : Nat} {todo : List Nat} {oldVal : BitVec 64}
      (hpos : wordOffset pos < s.bitmap.numWords)
      (ht : s.setter t = ⟨pos :: todo, some oldVal⟩)
      (hsame : atomic = true → s.bitmap.start (wordOffset pos) = oldVal) :
      Access atomic s t
        ⟨⟨s.bitmap.numWords, update s.bitmap.start (wordOffset pos) (oldVal ||| mask pos)⟩,
          update s.setter t ⟨todo, none⟩⟩

theorem access_of_step (h : step atomic s t = some s') : Access atomic s t s' := by
  unfold step load store at h
  cases ht : s.setter t with
  | mk todo oldVal =>
    rw [ht] at h
    cases todo with
    | nil => cases oldVal <;> simp at h
    | cons pos todo =>
      by_cases hpos : wordOffset pos < s.bitmap.numWords
      · cases oldVal with
        | none =>
          simp only [hpos, if_true, Option.map_some, Option.some.injEq] at h
          subst h
          exact .loads hpos ht
        | some oldVal =>
          simp only [hpos, if_true, Option.map_some, Option.bind_some] at h
          split at h
          · rename_i hlost
            obtain rfl := Option.some.inj h
            exact .retries ht hlost.1 hlost.2
          · rename_i hsame
            obtain rfl := Option.some.inj h
            exact .stores hpos ht fun hatomic => by
              by_contra hne
              exact hsame ⟨hatomic, hne⟩
      · cases oldVal <;> simp [hpos] at h

/-- A thread with a position of the bitmap left can go on. -/
theorem exists_step {pos : Nat} {todo : List Nat} (ht : (s.setter t).todo = pos :: todo)
    (hpos : wordOffset pos < s.bitmap.numWords) : ∃ s', step atomic s t = some s' := by
  unfold step load store
  cases hs : s.setter t with
  | mk todo' oldVal =>
    obtain rfl : todo' = pos :: todo := by simpa [hs] using ht
    cases oldVal with
    | none => simp [hpos]
    | some oldVal =>
      simp only [hpos, if_true, Option.map_some, Option.bind_some]
      split <;> simp

/-- A call that returns joins the finished ones. -/
theorem finished_update {bitmap : Bitmap} {pos : Nat} {todo : List Nat} {oldVal : Option (BitVec 64)}
    (hleft : (s.setter t).todo <:+ work t) (ht : s.setter t = ⟨pos :: todo, oldVal⟩) (u : ι) :
    finished work ⟨bitmap, update s.setter t ⟨todo, none⟩⟩ u =
      finished work s u ++ if u = t then [pos] else [] := by
  by_cases hu : u = t
  · subst u
    rw [ht] at hleft
    obtain ⟨done, hdone⟩ := hleft
    unfold finished
    rw [ht, ← hdone]
    simp only [update_self, List.length_append, List.length_cons, if_true]
    rw [show done.length + (todo.length + 1) - todo.length = done.length + 1 by omega,
      show done.length + (todo.length + 1) - (todo.length + 1) = done.length by omega,
      List.take_left, List.take_append]
    simp
  · simp [finished, hu]

theorem todo_update {f : ι → Setter} {todo : List Nat} {oldVal oldVal' : Option (BitVec 64)}
    (ht : f t = ⟨todo, oldVal⟩) (u : ι) : (update f t ⟨todo, oldVal'⟩ u).todo = (f u).todo := by
  by_cases hu : u = t
  · subst u; simp [ht]
  · simp [hu]

/-- A step keeps the bits exact as long as it does not store over a word that has changed. -/
theorem Exact.access (h : Exact b work s) (hacc : Access atomic s t s')
    (hfresh : ∀ pos todo oldVal, s.setter t = ⟨pos :: todo, some oldVal⟩ → atomic = false →
      s.bitmap.start (wordOffset pos) = oldVal) : Exact b work s' := by
  cases hacc with
  | loads hpos ht =>
    refine ⟨h.size, fun u => ?_, fun q => ?_⟩
    · simpa only [todo_update ht] using h.left u
    · rw [finished_congr (todo_update ht)]
      exact h.bits q
  | retries ht _ _ =>
    refine ⟨h.size, fun u => ?_, fun q => ?_⟩
    · simpa only [todo_update ht] using h.left u
    · rw [finished_congr (todo_update ht)]
      exact h.bits q
  | @stores pos todo oldVal hpos ht hsame =>
    have hword : s.bitmap.start (wordOffset pos) = oldVal := by
      cases atomic with
      | false => exact hfresh pos todo oldVal ht rfl
      | true => exact hsame rfl
    refine ⟨h.size, fun u => ?_, fun q => ?_⟩
    · by_cases hu : u = t
      · subst u
        have := h.left t
        rw [ht] at this
        simpa using (List.suffix_cons pos todo).trans this
      · simpa [hu] using h.left u
    · rw [← hword, getBit_store, Bool.or_eq_true, decide_eq_true_iff, h.bits q, or_assoc]
      refine or_congr_right ?_
      simp only [finished_update (h.left t) ht, List.mem_append]
      constructor
      · rintro (⟨u, hu⟩ | rfl)
        · exact ⟨u, .inl hu⟩
        · exact ⟨t, .inr (by simp)⟩
      · rintro ⟨u, hu | hu⟩
        · exact .inl ⟨u, hu⟩
        · by_cases hut : u = t
          · simp only [hut, if_true, List.mem_singleton] at hu
            exact .inr hu
          · simp [hut] at hu

/-! ### set_bit_atomic -/

theorem exact_of_exec {es : List ι} (hrun : exec (step true) (.init b work) es = some s) :
    Exact b work s :=
  invariant_of_step (fun _ _ _ h _ hs => h.access (access_of_step hs) nofun) (exact_init b work)
    (along_true _ _ _) hrun

section Atomic

variable [Fintype ι]

/-- The steps of a thread until it holds the word as it is now. -/
def debt (s : Setters ι) (t : ι) : Nat :=
  match s.setter t with
  | ⟨[], _⟩ => 0
  | ⟨_ :: _, none⟩ => 1
  | ⟨pos :: _, some oldVal⟩ => if s.bitmap.start (wordOffset pos) = oldVal then 0 else 2

/-- A store may spoil the words that the other threads hold, and pays for their retries. -/
def potential (s : Setters ι) : Nat :=
  2 * Fintype.card ι * ∑ t, (s.setter t).todo.length + ∑ t, debt s t

omit [DecidableEq ι] [Fintype ι] in
theorem debt_le (s : Setters ι) (t : ι) : debt s t ≤ 2 := by
  unfold debt
  split
  · omega
  · omega
  · split <;> omega

omit [DecidableEq ι] [Fintype ι] in
theorem debt_le_one (h : (s.setter t).oldVal = none) : debt s t ≤ 1 := by
  unfold debt
  split
  · omega
  · omega
  · rename_i hs
    simp [hs] at h

omit [Fintype ι] in
theorem debt_update_of_ne {x : Setter} {u : ι} (hu : u ≠ t) :
    debt ⟨s.bitmap, update s.setter t x⟩ u = debt s u := by
  simp [debt, hu]

theorem potential_same {x : Setter} (htodo : x.todo = (s.setter t).todo)
    (hlt : debt ⟨s.bitmap, update s.setter t x⟩ t < debt s t) :
    potential ⟨s.bitmap, update s.setter t x⟩ < potential s := by
  have hlen := sum_update_add s.setter (fun b => b.todo.length) t x
  have hdebt : ∑ u, debt ⟨s.bitmap, update s.setter t x⟩ u < ∑ u, debt s u := by
    refine Finset.sum_lt_sum (fun u _ => ?_) ⟨t, Finset.mem_univ t, hlt⟩
    by_cases hu : u = t
    · subst u; exact hlt.le
    · rw [debt_update_of_ne hu]
  rw [htodo] at hlen
  unfold potential
  rw [add_right_cancel hlen]
  omega

theorem potential_step (hstep : step true s t = some s') : potential s' < potential s := by
  cases access_of_step hstep with
  | loads hpos ht =>
    refine potential_same (by rw [ht]) ?_
    simp [debt, ht]
  | retries ht _ hlost =>
    refine potential_same (by rw [ht]) ?_
    simp [debt, ht, hlost]
  | @stores pos todo oldVal hpos ht hsame =>
    generalize hs' : (⟨⟨s.bitmap.numWords, update s.bitmap.start (wordOffset pos)
      (oldVal ||| mask pos)⟩, update s.setter t ⟨todo, none⟩⟩ : Setters ι) = s'
    have hlen : ∑ u, (s'.setter u).todo.length + 1 = ∑ u, (s.setter u).todo.length := by
      have := sum_update_add s.setter (fun b => b.todo.length) t ⟨todo, none⟩
      simp only [ht, List.length_cons] at this
      rw [← hs']
      simp only
      omega
    have hdebt : ∑ u, debt s' u < 2 * Fintype.card ι := by
      have hmine : debt s' t < 2 := by
        rw [← hs']
        cases todo <;> simp [debt]
      calc ∑ u, debt s' u < ∑ _u : ι, 2 :=
            Finset.sum_lt_sum (fun u _ => debt_le s' u) ⟨t, Finset.mem_univ t, hmine⟩
        _ = 2 * Fintype.card ι := by simp [Nat.mul_comm]
    unfold potential
    rw [← hlen, Nat.mul_add]
    omega

omit [Fintype ι] in
theorem Exact.exists_step (h : Exact b work s)
    (hwork : ∀ pos ∈ work t, wordOffset pos < b.numWords) (ht : (s.setter t).todo ≠ []) :
    ∃ s', step atomic s t = some s' := by
  obtain ⟨pos, todo, htodo⟩ := List.exists_cons_of_ne_nil ht
  refine Bitmap.exists_step htodo ?_
  rw [h.size]
  have hmem : pos ∈ (s.setter t).todo := by rw [htodo]; exact List.mem_cons_self
  exact hwork pos ((h.left t).subset hmem)

/-- The threads can always come to their ends. -/
theorem exists_end (b : Bitmap) (work : ι → List Nat)
    (hwork : ∀ t, ∀ pos ∈ work t, wordOffset pos < b.numWords) :
    ∃ es s, exec (step true) (.init b work) es = some s ∧ ∀ t, (s.setter t).todo = [] := by
  have hstep : ∀ s, Exact b work s → ¬(∀ t, (s.setter t).todo = []) →
      ∃ t s', step true s t = some s' ∧ Exact b work s' ∧ potential s' < potential s := by
    intro s h hnot
    obtain ⟨t, ht⟩ := not_forall.mp hnot
    obtain ⟨s', hs'⟩ := h.exists_step (hwork t) ht
    exact ⟨t, s', hs', h.access (access_of_step hs') nofun, potential_step hs'⟩
  exact exists_exec_end hstep (exact_init b work)

/-- set_bit_atomic from any number of threads: the set bits are those of the calls that have
returned, a thread is never stuck, and all calls together take boundedly many accesses. -/
theorem setBitAtomic_spec (memory : Nat → BitVec 64) (size : Nat) (work : ι → List Nat)
    (hwork : ∀ t, ∀ pos ∈ work t, pos < size) {es : List ι} {s : Setters ι}
    (hrun : exec (step true) (.init (new memory size) work) es = some s) :
    (∀ q, s.bitmap.getBit q = true ↔
      (new memory size).getBit q = true ∨ ∃ t, q ∈ finished work s t) ∧
    (∀ t, (s.setter t).todo ≠ [] → ∃ s', step true s t = some s') ∧
    es.length ≤ (2 * ∑ t, (work t).length + 1) * Fintype.card ι := by
  have hexact := exact_of_exec hrun
  refine ⟨hexact.bits, fun t => hexact.exists_step fun pos hpos => wordOffset_lt (hwork t pos hpos),
    ?_⟩
  · have hpaid := exec_length_add_le (fun s t s' => potential_step) hrun
    have hstart : potential (.init (new memory size) work) ≤
        2 * Fintype.card ι * ∑ t, (work t).length + Fintype.card ι := by
      have hdebt : ∑ t, debt (.init (new memory size) work) t ≤ Fintype.card ι := by
        calc ∑ t, debt (.init (new memory size) work) t ≤ ∑ _t : ι, 1 :=
              Finset.sum_le_sum fun t _ => debt_le_one rfl
          _ = Fintype.card ι := by simp
      unfold potential
      simp only [Setters.init] at hdebt ⊢
      omega
    calc es.length ≤ potential (.init (new memory size) work) := by omega
      _ ≤ 2 * Fintype.card ι * ∑ t, (work t).length + Fintype.card ι := hstart
      _ = (2 * ∑ t, (work t).length + 1) * Fintype.card ι := by ring

/-- Two threads with bits of one word: the second store is lost once and repeated. -/
theorem setBitAtomic_spec_two :
    ∃ s, exec (step true) (.init (new (fun _ => 0#64) 70) fun t : Fin 2 => if t = 0 then [3] else [5])
        [0, 1, 0, 1, 1, 1] = some s ∧
      ∀ q, s.bitmap.getBit q = true ↔ (new (fun _ => 0#64) 70).getBit q = true ∨
        ∃ t, q ∈ finished (fun t : Fin 2 => if t = 0 then [3] else [5]) s t := by
  obtain ⟨s, hs⟩ := Option.isSome_iff_exists.mp (by decide : (exec (step true)
    (.init (new (fun _ => 0#64) 70) fun t : Fin 2 => if t = 0 then [3] else [5])
    [0, 1, 0, 1, 1, 1]).isSome = true)
  exact ⟨s, hs, (setBitAtomic_spec _ 70 _ (by decide) hs).1⟩

end Atomic

/-! ### set_bit -/

/-- No word holds bits of two threads. -/
def WordsApart (work : ι → List Nat) : Prop :=
  ∀ t u, t ≠ u → ∀ p ∈ work t, ∀ q ∈ work u, wordOffset p ≠ wordOffset q

instance [Fintype ι] (work : ι → List Nat) : Decidable (WordsApart work) :=
  inferInstanceAs (Decidable
    (∀ t u, t ≠ u → ∀ p ∈ work t, ∀ q ∈ work u, wordOffset p ≠ wordOffset q))

/-- Without a compare_and_swap: a loaded word stays as it is until it is stored. -/
def Fresh (s : Setters ι) : Prop :=
  ∀ t pos todo oldVal, s.setter t = ⟨pos :: todo, some oldVal⟩ →
    s.bitmap.start (wordOffset pos) = oldVal

omit [DecidableEq ι] in
theorem Exact.mem_work (h : Exact b work s) {pos : Nat} {todo : List Nat}
    {oldVal : Option (BitVec 64)} (ht : s.setter t = ⟨pos :: todo, oldVal⟩) : pos ∈ work t := by
  have hleft := h.left t
  rw [ht] at hleft
  exact hleft.subset List.mem_cons_self

theorem of_update_none {f : ι → Setter} {u : ι} {l l' : List Nat} {word : BitVec 64}
    (h : update f t ⟨l, none⟩ u = ⟨l', some word⟩) : u ≠ t ∧ f u = ⟨l', some word⟩ := by
  by_cases hu : u = t
  · subst u
    simp at h
  · rw [update_of_ne hu] at h
    exact ⟨hu, h⟩

theorem Fresh.access (hfresh : Fresh s) (hexact : Exact b work s) (hapart : WordsApart work)
    (hacc : Access atomic s t s') : Fresh s' := by
  intro u pos' todo' oldVal' hu
  cases hacc with
  | loads hpos ht =>
    simp only at hu ⊢
    by_cases hut : u = t
    · subst u
      simp only [update_self, Setter.mk.injEq, List.cons.injEq, Option.some.injEq] at hu
      obtain ⟨⟨rfl, rfl⟩, rfl⟩ := hu
      rfl
    · rw [update_of_ne hut] at hu
      exact hfresh u pos' todo' oldVal' hu
  | retries ht _ _ => exact hfresh u pos' todo' oldVal' (of_update_none hu).2
  | @stores pos todo oldVal hpos ht _ =>
    obtain ⟨hut, hu⟩ := of_update_none hu
    have hword : wordOffset pos' ≠ wordOffset pos :=
      hapart u t hut pos' (hexact.mem_work hu) pos (hexact.mem_work ht)
    simpa only [update_of_ne hword] using hfresh u pos' todo' oldVal' hu

/-- What the calls of set_bit keep while the threads share no word. -/
structure Kept (b : Bitmap) (work : ι → List Nat) (s : Setters ι) : Prop extends Exact b work s where
  fresh : Fresh s

omit [DecidableEq ι] in
theorem kept_init (b : Bitmap) (work : ι → List Nat) : Kept b work (.init b work) :=
  ⟨exact_init b work, by simp [Fresh, Setters.init]⟩

theorem Kept.step (h : Kept b work s) (hapart : WordsApart work)
    (hstep : step false s t = some s') : Kept b work s' :=
  ⟨h.toExact.access (access_of_step hstep) fun _ _ _ ht _ => h.fresh t _ _ _ ht,
    h.fresh.access h.toExact hapart (access_of_step hstep)⟩

/-- A thread alone sets bit after bit. -/
theorem exec_alone (done rest : List Nat) (ht : s.setter t = ⟨done ++ rest, none⟩)
    (hpos : ∀ p ∈ done, wordOffset p < s.bitmap.numWords) :
    ∃ es s', exec (step false) s es = some s' ∧ s'.setter = update s.setter t ⟨rest, none⟩ ∧
      s'.bitmap.numWords = s.bitmap.numWords ∧
      ∀ q, s'.bitmap.getBit q = true ↔ s.bitmap.getBit q = true ∨ q ∈ done := by
  induction done generalizing s with
  | nil => exact ⟨[], s, rfl, by rw [← List.nil_append rest, ← ht, update_eq_self], rfl, by simp⟩
  | cons p done ih =>
    have hp := hpos p List.mem_cons_self
    let s₁ : Setters ι :=
      ⟨⟨s.bitmap.numWords, update s.bitmap.start (wordOffset p)
        (s.bitmap.start (wordOffset p) ||| mask p)⟩, update s.setter t ⟨done ++ rest, none⟩⟩
    have hs₁ : exec (step false) s [t, t] = some s₁ := by
      simp [exec, step, load, store, ht, hp, s₁]
    obtain ⟨es, s', hrun, hsetter, hsize, hbits⟩ := ih (s := s₁) (by simp [s₁])
      fun q hq => hpos q (List.mem_cons_of_mem _ hq)
    refine ⟨[t, t] ++ es, s', ?_, ?_, hsize, fun q => ?_⟩
    · rw [exec_append, hs₁, Option.bind_some, hrun]
    · rw [hsetter]
      simp [s₁]
    · rw [hbits q, getBit_store, Bool.or_eq_true, decide_eq_true_iff, List.mem_cons, or_assoc]

/-- Both threads load the word before one of them stores it: the first bit is gone. -/
theorem exec_lost {p q : Nat} {todo todo' : List Nat} {u : ι} (htu : t ≠ u)
    (ht : s.setter t = ⟨p :: todo, none⟩) (hu : s.setter u = ⟨q :: todo', none⟩)
    (hword : wordOffset p = wordOffset q) (hpq : p ≠ q)
    (hpos : wordOffset p < s.bitmap.numWords) (hclear : s.bitmap.getBit p = false) :
    ∃ s', exec (step false) s [t, u, t, u] = some s' ∧ (s'.setter t).todo = todo ∧
      s'.bitmap.getBit p = false := by
  have hut : u ≠ t := Ne.symm htu
  have hqpos : wordOffset q < s.bitmap.numWords := hword ▸ hpos
  refine ⟨⟨⟨s.bitmap.numWords, update (update s.bitmap.start (wordOffset p)
      (s.bitmap.start (wordOffset p) ||| mask p)) (wordOffset q)
      (s.bitmap.start (wordOffset q) ||| mask q)⟩,
    update (update (update (update s.setter t ⟨p :: todo, some (s.bitmap.start (wordOffset p))⟩) u
      ⟨q :: todo', some (s.bitmap.start (wordOffset q))⟩) t ⟨todo, none⟩) u ⟨todo', none⟩⟩, ?_, ?_, ?_⟩
  · simp [exec, step, load, store, ht, hu, htu, hut, hpos, hqpos]
  · simp [htu]
  · have hlost := getBit_store s.bitmap q p
    rw [hclear, Bool.false_or, decide_eq_false hpq] at hlost
    rw [← hlost, getBit_eq, getBit_eq, hword]
    simp only [update_self]

theorem wordsApart_of_exact {memory : Nat → BitVec 64} {size : Nat} {work : ι → List Nat}
    (hwork : ∀ t, ∀ pos ∈ work t, pos < size) (hnodup : ∀ t, (work t).Nodup)
    (hdisjoint : ∀ t u, t ≠ u → (work t).Disjoint (work u))
    (hkeeps : ∀ es s, exec (step false) (.init (new memory size).reset work) es = some s →
      ∀ t, ∀ pos ∈ finished work s t, s.bitmap.getBit pos = true) : WordsApart work := by
  intro t u htu p hp q hq hword
  obtain ⟨done, todo, hdone⟩ := List.append_of_mem hp
  obtain ⟨done', todo', hdone'⟩ := List.append_of_mem hq
  have hpos (v : ι) {r : Nat} (hr : r ∈ work v) : wordOffset r < (new memory size).numWords :=
    wordOffset_lt (hwork v r hr)
  obtain ⟨es₁, s₁, hrun₁, hset₁, hsize₁, hbits₁⟩ :=
    exec_alone (s := .init (new memory size).reset work) (t := t) done (p :: todo)
      (by simp [Setters.init, hdone]) fun r hr => hpos t (by simp [hdone, hr])
  obtain ⟨es₂, s₂, hrun₂, hset₂, hsize₂, hbits₂⟩ :=
    exec_alone (s := s₁) (t := u) done' (q :: todo')
      (by simp [hset₁, Setters.init, Ne.symm htu, hdone'])
      fun r hr => hsize₁ ▸ hpos u (by simp [hdone', hr])
  have hpq : p ≠ q := fun h => hdisjoint t u htu hp (h ▸ hq)
  have hclear : s₂.bitmap.getBit p = false := by
    have hstart : (new memory size).reset.getBit p = false := getBit_reset (hpos t hp)
    have hmine : p ∉ done := by
      have := hnodup t
      rw [hdone] at this
      exact fun h => (List.disjoint_of_nodup_append this) h List.mem_cons_self
    have htheirs : p ∉ done' := fun h => hdisjoint t u htu hp (by simp [hdone', h])
    rw [← Bool.not_eq_true, hbits₂, hbits₁]
    simp [Setters.init, hstart, hmine, htheirs]
  have hsetter : s₂.setter t = ⟨p :: todo, none⟩ := by simp [hset₂, hset₁, htu]
  have hsetter' : s₂.setter u = ⟨q :: todo', none⟩ := by simp [hset₂]
  obtain ⟨s₃, hrun₃, htodo, hlost⟩ := exec_lost htu hsetter hsetter' hword hpq
    (by rw [hsize₂, hsize₁]; exact hpos t hp) hclear
  have hfin : p ∈ finished work s₃ t := by
    unfold finished
    rw [htodo, hdone, List.length_append, List.length_cons,
      show done.length + (todo.length + 1) - todo.length = done.length + 1 by omega,
      List.take_append]
    simp
  have := hkeeps (es₁ ++ (es₂ ++ [t, u, t, u])) s₃
    (by rw [exec_append, hrun₁, Option.bind_some, exec_append, hrun₂, Option.bind_some, hrun₃])
    t p hfin
  rw [hlost] at this
  exact Bool.false_ne_true this

/-- set_bit from the threads of do_bfs_BUStep, where every position belongs to one iteration: no
bit is ever lost exactly if the threads share no word. -/
theorem setBit_spec (memory : Nat → BitVec 64) (size : Nat) (work : ι → List Nat)
    (hwork : ∀ t, ∀ pos ∈ work t, pos < size) (hnodup : ∀ t, (work t).Nodup)
    (hdisjoint : ∀ t u, t ≠ u → (work t).Disjoint (work u)) :
    (∀ es s, exec (step false) (.init (new memory size).reset work) es = some s →
      ∀ t, ∀ pos ∈ finished work s t, s.bitmap.getBit pos = true) ↔ WordsApart work := by
  refine ⟨wordsApart_of_exact hwork hnodup hdisjoint, fun hapart es s hrun t pos hpos => ?_⟩
  have hkept : Kept (new memory size).reset work s :=
    invariant_of_step (fun _ _ _ h _ hstep => h.step hapart hstep) (kept_init _ _)
      (along_true _ _ _) hrun
  exact (hkept.bits pos).mpr (.inr ⟨t, hpos⟩)

/-- Positions 0 and 64 lie in two words. -/
theorem setBit_spec_two :
    let work : Fin 2 → List Nat := fun t => if t = 0 then [0] else [64]
    ∃ s, exec (step false) (.init (new (fun _ => 7#64) 70).reset work) [0, 1, 1, 0] = some s ∧
      (∀ t, finished work s t = work t) ∧
      ∀ t, ∀ pos ∈ finished work s t, s.bitmap.getBit pos = true := by
  intro work
  obtain ⟨s, hrun, hall⟩ : ∃ s, exec (step false) (.init (new (fun _ => 7#64) 70).reset work)
      [0, 1, 1, 0] = some s ∧ ∀ t, finished work s t = work t := exists_exec (by decide)
  refine ⟨s, hrun, hall, ?_⟩
  exact (setBit_spec (fun _ => 7#64) 70 work (by decide) (by decide)
    (by simp only [List.disjoint_left]; decide)).mpr (by decide) _ s hrun

end Bitmap

end AVBGraph.Gapbs
