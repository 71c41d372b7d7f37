import AVBGraph.Framework.Run
import Mathlib.Data.Option.Basic
import Mathlib.Tactic

namespace AVBGraph.Framework

/-- An array that doubles when it is full; the counters are words. Cells from `used` on hold
whatever the allocation left there. -/
structure Growing (α : Type*) where
  capacity : Nat
  used : Nat
  cells : List α

namespace Growing

variable {α : Type*}

inductive Edit (α : Type*)
  | push (x : α) (fresh : Nat → α)
  | modify (i : Nat) (f : α → α)
  | rewind
  | release

def empty : Growing α := ⟨0, 0, []⟩

/-- memcpy of `n` cells, which fails outside of either array. -/
def copyFront (n : Nat) (dst src : List α) : Option (List α) :=
  if n ≤ src.length ∧ n ≤ dst.length then some (src.take n ++ dst.drop n) else none

def alloc (n : Nat) (fresh : Nat → α) : List α := (List.range n).map fresh

/-- The next larger array. The doubling may wrap around. -/
def grow (width first : Nat) (fresh : Nat → α) (g : Growing α) : Option (Growing α) :=
  if g.capacity ≠ 0 then
    let capacity := g.capacity * 2 % 2 ^ width
    (copyFront (capacity / 2) (alloc capacity fresh) g.cells).map fun cells =>
      { g with capacity := capacity, cells := cells }
  else some { g with capacity := first, cells := alloc first fresh }

def modify (g : Growing α) (i : Nat) (f : α → α) : Option (Growing α) :=
  if i < g.cells.length then some { g with cells := g.cells.modify i f } else none

def makeRoom (width first : Nat) (fresh : Nat → α) (g : Growing α) : Option (Growing α) :=
  if g.used > g.capacity then g.grow width first fresh else some g

def push (width first : Nat) (x : α) (fresh : Nat → α) (g : Growing α) : Option (Growing α) :=
  (makeRoom width first fresh { g with used := (g.used + 1) % 2 ^ width }).bind fun g =>
    g.modify ((g.used + 2 ^ width - 1) % 2 ^ width) fun _ => x

def step (width first : Nat) (g : Growing α) : Edit α → Option (Growing α)
  | .push x fresh => g.push width first x fresh
  | .modify i f => g.modify i f
  | .rewind => some { g with used := 0 }
  | .release => some empty

/-- What the array stands for: a list of bounded length. -/
def listStep (limit : Nat) (xs : List α) : Edit α → Option (List α)
  | .push x _ => if xs.length < limit then some (xs ++ [x]) else none
  | .modify i f => some (xs.modify i f)
  | .rewind => some []
  | .release => some []

/-- Only cells in use are modified. -/
def InUse (xs : List α) : Edit α → Prop
  | .modify i _ => i < xs.length
  | _ => True

/-- The array of an exponent `first` of the initial capacity holds the list. -/
structure Holds (width first : Nat) (g : Growing α) (xs : List α) : Prop where
  used_eq : g.used = xs.length
  used_le : g.used ≤ g.capacity
  length_cells : g.cells.length = g.capacity
  take_cells : g.cells.take g.used = xs
  pow : g.capacity = 0 ∨ ∃ k, first ≤ k ∧ k < width ∧ g.capacity = 2 ^ k

variable {width first : Nat} {g : Growing α} {xs : List α}

theorem holds_empty : Holds width first (empty : Growing α) [] :=
  ⟨rfl, le_rfl, rfl, rfl, .inl rfl⟩

theorem Holds.capacity_le (h : Holds width first g xs) : g.capacity ≤ 2 ^ (width - 1) := by
  rcases h.pow with hzero | ⟨k, -, hk, hcap⟩
  · exact hzero ▸ Nat.zero_le _
  · rw [hcap]
    exact Nat.pow_le_pow_right two_pos (Nat.le_sub_one_of_lt hk)

theorem Holds.le_capacity (h : Holds width first g xs) :
    g.capacity = 0 ∨ 2 ^ first ≤ g.capacity := by
  refine h.pow.imp_right fun ⟨k, hk, _, hcap⟩ => ?_
  rw [hcap]
  exact Nat.pow_le_pow_right two_pos hk

theorem used_makeRoom {first : Nat} {fresh : Nat → α} {g g' : Growing α}
    (h : g.makeRoom width first fresh = some g') : g'.used = g.used := by
  unfold makeRoom Growing.grow at h
  split at h
  · split at h
    · obtain ⟨cells, -, rfl⟩ := Option.map_eq_some_iff.mp h
      rfl
    · cases h
      rfl
  · cases h
    rfl

theorem push_eq (h : g.used + 1 < 2 ^ width) (first : Nat) (x : α) (fresh : Nat → α) :
    g.push width first x fresh = (makeRoom width first fresh { g with used := g.used + 1 }).bind
      fun g' => g'.modify g.used fun _ => x := by
  have hindex : (g.used + 1 + 2 ^ width - 1) % 2 ^ width = g.used := by
    rw [Nat.add_right_comm, Nat.add_sub_cancel, Nat.add_mod_right, Nat.mod_eq_of_lt (by omega)]
  unfold push
  rw [Nat.mod_eq_of_lt h]
  refine Option.bind_congr fun g' hg' => ?_
  rw [used_makeRoom hg', hindex]

/-- A cell in use is modified in the array and in the list. -/
theorem Holds.modify (h : Holds width first g xs) {i : Nat} (hi : i < xs.length) (f : α → α) :
    ∃ g', g.modify i f = some g' ∧ Holds width first g' (xs.modify i f) ∧
      g'.used = g.used ∧ g'.capacity = g.capacity := by
  have hcells : i < g.cells.length := by
    rw [h.length_cells]
    exact hi.trans_le (h.used_eq ▸ h.used_le)
  refine ⟨_, if_pos hcells, ⟨?_, h.used_le, ?_, ?_, h.pow⟩, rfl, rfl⟩
  · rw [List.length_modify]
    exact h.used_eq
  · rw [List.length_modify]
    exact h.length_cells
  · rw [← h.take_cells]
    exact List.take_modify ..

theorem Holds.rewind (h : Holds width first g xs) : Holds width first { g with used := 0 } [] :=
  ⟨rfl, Nat.zero_le _, h.length_cells, rfl, h.pow⟩

/-- A cell behind the ones in use becomes the last of them. -/
theorem Holds.store (h : Holds width first g xs) (hlt : g.used < g.capacity) (x : α) :
    ∃ g', Growing.modify { g with used := g.used + 1 } g.used (fun _ => x) = some g' ∧
      Holds width first g' (xs ++ [x]) ∧ g'.capacity = g.capacity := by
  have hcells : g.used < g.cells.length := h.length_cells ▸ hlt
  refine ⟨_, if_pos hcells, ⟨?_, hlt, ?_, ?_, h.pow⟩, rfl⟩
  · rw [List.length_append, ← h.used_eq, List.length_singleton]
  · rw [List.length_modify]
    exact h.length_cells
  · have hfront : (g.cells.modify g.used fun _ => x).take g.used = xs := by
      rw [List.take_modify, h.take_cells]
      exact List.modify_eq_self (h.used_eq ▸ le_rfl)
    rw [List.take_add_one, hfront, List.getElem?_modify_eq, List.getElem?_eq_getElem hcells]
    rfl

theorem grow_of_capacity_eq_zero (hzero : g.capacity = 0) (fresh : Nat → α) (n : Nat) :
    Growing.grow width first fresh { g with used := n } = some ⟨first, n, alloc first fresh⟩ := by
  simp [Growing.grow, hzero]

/-- An empty array gives way to one of the initial capacity. -/
theorem Holds.initial (h : Holds width first g xs) (hfirst : first < width) (hzero : g.capacity = 0)
    (fresh : Nat → α) : Holds width first ⟨2 ^ first, g.used, alloc (2 ^ first) fresh⟩ xs := by
  have hused : g.used = 0 := Nat.le_zero.mp (hzero ▸ h.used_le)
  have hnil : xs = [] := List.length_eq_zero_iff.mp (h.used_eq ▸ hused)
  refine ⟨h.used_eq, ?_, ?_, ?_, .inr ⟨first, le_rfl, hfirst, rfl⟩⟩
  · exact hused ▸ Nat.zero_le _
  · rw [alloc, List.length_map, List.length_range]
  · rw [hused, hnil, List.take_zero]

/-- A full array below half of the words gives way to one of twice its size with the same front. -/
theorem Holds.double (h : Holds width first g xs) (hne : g.capacity ≠ 0)
    (hfull : g.used = g.capacity) (hlt : xs.length < 2 ^ (width - 1)) (fresh : Nat → α) (n : Nat) :
    ∃ g', Growing.grow width (2 ^ first) fresh { g with used := n } = some { g' with used := n } ∧
      Holds width first g' xs ∧ g'.used = g.used ∧ g'.capacity = g.capacity * 2 := by
  have hlen : xs.length = g.capacity := h.used_eq ▸ hfull
  obtain ⟨k, hk, hkw, hcap⟩ := h.pow.resolve_left hne
  have hdouble : g.capacity * 2 = 2 ^ (k + 1) := by rw [hcap, pow_succ]
  have hless : k + 1 < width := by
    rw [hlen, hcap, Nat.pow_lt_pow_iff_right (by decide)] at hlt
    omega
  have hmod : g.capacity * 2 % 2 ^ width = g.capacity * 2 :=
    Nat.mod_eq_of_lt (hdouble ▸ Nat.pow_lt_pow_right (by decide) hless)
  have hhalf : g.capacity * 2 / 2 = g.capacity := Nat.mul_div_cancel _ two_pos
  have htake : g.cells.take g.capacity = xs := hfull ▸ h.take_cells
  have hcopy : copyFront g.capacity (alloc (g.capacity * 2) fresh) g.cells =
      some (xs ++ (alloc (g.capacity * 2) fresh).drop g.capacity) := by
    rw [copyFront, if_pos ⟨h.length_cells.ge, by simp [alloc]; omega⟩, htake]
  refine ⟨⟨g.capacity * 2, g.used, xs ++ (alloc (g.capacity * 2) fresh).drop g.capacity⟩, ?_,
    ⟨h.used_eq, ?_, ?_, ?_, ?_⟩, rfl, rfl⟩
  · simp [Growing.grow, hne, hmod, hhalf, hcopy]
  · simp only [hfull]
    omega
  · simp [alloc, hlen]
    omega
  · simp [hfull, ← hlen]
  · exact .inr ⟨k + 1, hk.trans (Nat.le_succ k), hless, hdouble⟩

/-- A full array is replaced by a larger one with the same front. -/
theorem Holds.grow (h : Holds width first g xs) (hfirst : first < width)
    (hfull : g.used = g.capacity) (hlt : xs.length < 2 ^ (width - 1)) (fresh : Nat → α) (n : Nat) :
    ∃ g', Growing.grow width (2 ^ first) fresh { g with used := n } = some { g' with used := n } ∧
      Holds width first g' xs ∧ g'.used = g.used ∧
      g'.capacity = if g.capacity = 0 then 2 ^ first else g.capacity * 2 := by
  by_cases hzero : g.capacity = 0
  · exact ⟨_, grow_of_capacity_eq_zero hzero fresh n, h.initial hfirst hzero fresh, rfl,
      (if_pos hzero).symm⟩
  · obtain ⟨g', hgrow, hholds, hused, hcap⟩ := h.double hzero hfull hlt fresh n
    exact ⟨g', hgrow, hholds, hused, by rw [hcap, if_neg hzero]⟩

theorem two_pow_pred {width : Nat} (hwidth : 1 < width) :
    2 ^ width = 2 * 2 ^ (width - 1) ∧ 2 ≤ 2 ^ (width - 1) := by
  obtain ⟨k, rfl⟩ : ∃ k, width = k + 2 := ⟨width - 2, by omega⟩
  have hpos : 0 < 2 ^ k := Nat.two_pow_pos k
  simp only [Nat.add_succ_sub_one, pow_succ]
  omega

theorem Holds.used_lt (h : Holds width first g xs) (hwidth : 1 < width) :
    g.used + 1 < 2 ^ width := by
  obtain ⟨hdouble, htwo⟩ := two_pow_pred hwidth
  have hle := h.used_le.trans h.capacity_le
  omega

theorem Holds.push (h : Holds width first g xs) (hwidth : 1 < width) (hfirst : first < width)
    (hlt : xs.length < 2 ^ (width - 1)) (x : α) (fresh : Nat → α) :
    ∃ g', g.push width (2 ^ first) x fresh = some g' ∧ Holds width first g' (xs ++ [x]) ∧
      g'.capacity = if g.used < g.capacity then g.capacity
        else if g.capacity = 0 then 2 ^ first else g.capacity * 2 := by
  rw [push_eq (h.used_lt hwidth), makeRoom]
  by_cases hroom : g.used < g.capacity
  · obtain ⟨g', hstore, hholds, hcap⟩ := h.store hroom x
    refine ⟨g', ?_, hholds, by rw [hcap, if_pos hroom]⟩
    have hnot : ¬g.used + 1 > g.capacity := by omega
    rw [if_neg hnot, Option.bind_some, hstore]
  · have hfull : g.used = g.capacity := le_antisymm h.used_le (not_lt.mp hroom)
    obtain ⟨g', hgrow, hholds, hsame, hcap⟩ := h.grow hfirst hfull hlt fresh (g.used + 1)
    have hpos : g'.used < g'.capacity := by
      have hne := Nat.two_pow_pos first
      rw [hcap, hsame, hfull]
      split <;> omega
    obtain ⟨g'', hstore, hholds', hcap'⟩ := hholds.store hpos x
    rw [hsame] at hstore
    refine ⟨g'', ?_, hholds', by rw [hcap', hcap, if_neg hroom]⟩
    have hmore : g.used + 1 > g.capacity := by omega
    rw [if_pos hmore, hgrow, Option.bind_some, hstore]

/-- At half of the words the doubling wraps around to an empty array. -/
theorem Holds.push_eq_none (h : Holds width first g xs) (hwidth : 1 < width)
    (hle : 2 ^ (width - 1) ≤ xs.length) (x : α) (fresh : Nat → α) :
    g.push width (2 ^ first) x fresh = none := by
  obtain ⟨hdouble, htwo⟩ := two_pow_pred hwidth
  have hcap : g.capacity = 2 ^ (width - 1) :=
    le_antisymm h.capacity_le ((hle.trans h.used_eq.ge).trans h.used_le)
  have hwrap : g.capacity * 2 % 2 ^ width = 0 := by
    rw [hcap, Nat.mul_comm, ← hdouble, Nat.mod_self]
  have hfull : g.used + 1 > g.capacity := by
    rw [hcap, h.used_eq]
    omega
  have hgrow : Growing.grow width (2 ^ first) fresh { g with used := g.used + 1 } =
      some ⟨0, g.used + 1, []⟩ := by
    have hne : g.capacity ≠ 0 := by omega
    simp [Growing.grow, hne, hwrap, copyFront, alloc]
  rw [push_eq (h.used_lt hwidth), makeRoom, if_pos hfull, hgrow]
  simp [Growing.modify]

/-- The array and the list fail together, and agree otherwise. -/
theorem Holds.step (h : Holds width first g xs) (hwidth : 1 < width) (hfirst : first < width)
    {e : Edit α} (he : InUse xs e) :
    Option.Rel (Holds width first) (g.step width (2 ^ first) e)
      (listStep (2 ^ (width - 1)) xs e) := by
  cases e with
  | push x fresh =>
    by_cases hlt : xs.length < 2 ^ (width - 1)
    · obtain ⟨g', hpush, hholds, -⟩ := h.push hwidth hfirst hlt x fresh
      simpa only [Growing.step, listStep, if_pos hlt, hpush] using .some hholds
    · simpa only [Growing.step, listStep, if_neg hlt,
        h.push_eq_none hwidth (not_lt.mp hlt) x fresh] using .none
  | modify i f =>
    obtain ⟨g', hmodify, hholds, -⟩ := h.modify he f
    simpa only [Growing.step, listStep, hmodify] using .some hholds
  | rewind => exact .some h.rewind
  | release => exact .some holds_empty

section Cost

/-- The cells that an operation copies. -/
def copied (width : Nat) (g : Growing α) : Edit α → Nat
  | .push _ _ => if (g.used + 1) % 2 ^ width > g.capacity then g.capacity * 2 % 2 ^ width / 2 else 0
  | _ => 0

def runCopied (width first : Nat) : Growing α → List (Edit α) → Nat
  | _, [] => 0
  | g, e :: es =>
    copied width g e + (g.step width first e).elim 0 fun g => runCopied width first g es

def isPush : Edit α → Bool
  | .push _ _ => true
  | _ => false

theorem Holds.copied_push_le (h : Holds width first g xs) (hwidth : 1 < width) (x : α)
    (fresh : Nat → α) :
    copied width g (.push x fresh) ≤ if g.used < g.capacity then 0 else g.capacity := by
  have hmod : g.capacity * 2 % 2 ^ width ≤ g.capacity * 2 := Nat.mod_le ..
  rw [copied, Nat.mod_eq_of_lt (h.used_lt hwidth)]
  split_ifs <;> omega

theorem max_empty (n : Nat) : max (empty : Growing α).capacity n = n := max_eq_right (Nat.zero_le n)

/-- `life` pushes have been made since the allocation. Each of them pays for two cells, which covers
the copies so far and leaves a cell for each one of the array. -/
theorem runCopied_le (hwidth : 1 < width) (hfirst : first < width) {es : List (Edit α)} (life : Nat)
    (h : Holds width first g xs) (hok : Along (listStep (2 ^ (width - 1))) InUse xs es)
    (hused : g.used ≤ life) (hcap : g.capacity ≤ 2 * life + 2 ^ first) :
    runCopied width (2 ^ first) g es + max g.capacity (2 ^ first) ≤
      2 * es.countP isPush + (2 * life + 2 ^ first) := by
  induction es generalizing g xs life with
  | nil => simpa [runCopied] using hcap
  | cons e es ih =>
    cases e with
    | push x fresh =>
      rw [runCopied, Growing.step, List.countP_cons_of_pos rfl]
      have hle := h.used_le
      have hpow := h.le_capacity
      have hcopied := h.copied_push_le hwidth x fresh
      by_cases hlt : xs.length < 2 ^ (width - 1)
      · obtain ⟨g', hpush, hholds, hcap'⟩ := h.push hwidth hfirst hlt x fresh
        have hused' : g'.used = g.used + 1 := by
          rw [hholds.used_eq, h.used_eq, List.length_append, List.length_singleton]
        have hrest := ih (life + 1) hholds (hok.2 _ (if_pos hlt)) (by omega)
        rw [hpush, Option.elim_some]
        rw [hcap'] at hrest
        generalize 2 ^ first = p at *
        split_ifs at hrest hcopied
        all_goals
          have hpaid := hrest (by omega)
          omega
      · rw [h.push_eq_none hwidth (not_lt.mp hlt) x fresh, Option.elim_none]
        generalize 2 ^ first = p at *
        split_ifs at hcopied <;> omega
    | modify i f =>
      obtain ⟨g', hmodify, hholds, hused', hcap'⟩ := h.modify hok.1 f
      have hrest := ih life hholds (hok.2 _ rfl) (hused' ▸ hused) (hcap' ▸ hcap)
      rw [hcap'] at hrest
      simpa [runCopied, copied, Growing.step, hmodify, isPush] using hrest
    | rewind =>
      have hrest := ih life h.rewind (hok.2 _ rfl) (Nat.zero_le life) hcap
      simpa [runCopied, copied, Growing.step, isPush] using hrest
    | release =>
      have hrest := ih 0 holds_empty (hok.2 _ rfl) le_rfl (Nat.zero_le _)
      rw [max_empty] at hrest
      simp only [runCopied, copied, Growing.step, Option.elim_some, List.countP_cons_of_neg, isPush,
        Bool.false_eq_true, not_false_eq_true]
      generalize 2 ^ first = p at *
      omega

/-- A run from an empty array and list: the two fail together and agree otherwise, and fewer than
two cells are copied for each push. -/
theorem exec_spec (hwidth : 1 < width) (hfirst : first < width) {es : List (Edit α)}
    (hok : Along (listStep (2 ^ (width - 1))) InUse [] es) :
    Option.Rel (Holds width first) (exec (Growing.step width (2 ^ first)) empty es)
      (exec (listStep (2 ^ (width - 1))) [] es) ∧
    runCopied width (2 ^ first) empty es ≤ 2 * es.countP isPush := by
  refine ⟨exec_rel (fun _ _ _ h he => h.step hwidth hfirst he) holds_empty hok, ?_⟩
  have hle := runCopied_le hwidth hfirst 0 holds_empty hok le_rfl (Nat.zero_le _)
  rw [max_empty] at hle
  omega

end Cost

end Growing

end AVBGraph.Framework
