import Mathlib.Data.List.Basic
import Mathlib.Tactic

namespace AVBGraph.Framework

variable {α : Type*}

/-- std::vector::resize, the new elements being `d`. -/
def resize (l : List α) (n : Nat) (d : α) : List α := l.takeD n d

@[simp] theorem length_resize (l : List α) (n : Nat) (d : α) : (resize l n d).length = n :=
  List.takeD_length n l d

theorem getElem?_resize (l : List α) (n : Nat) (d : α) (i : Nat) :
    (resize l n d)[i]? = if i < n then some (l.getD i d) else none := by
  rw [resize]
  induction n generalizing l i with
  | zero => simp
  | succ n ih =>
    rw [List.takeD_succ]
    cases i with
    | zero => cases l <;> simp
    | succ i =>
      rw [List.getElem?_cons_succ, ih]
      cases l <;> simp

/-- A loop over the indices below `n` that writes the entries with `p`; a write behind the end of
the vector is `none`. -/
def writeWhere (p : Nat → Bool) (f : Nat → α) (n : Nat) (l : List α) : Option (List α) :=
  (List.range n).foldlM
    (fun l i => if p i then if i < l.length then some (l.set i (f i)) else none else some l) l

/-- The loop that writes all of them. -/
def writeBelow (f : Nat → α) (n : Nat) (l : List α) : Option (List α) :=
  writeWhere (fun _ => true) f n l

variable {p : Nat → Bool} {f : Nat → α} {n : Nat} {l : List α}

theorem writeWhere_succ : writeWhere p f (n + 1) l = (writeWhere p f n l).bind fun l =>
    if p n then if n < l.length then some (l.set n (f n)) else none else some l := by
  rw [writeWhere, List.range_succ, List.foldlM_append]
  simp only [List.foldlM_cons, List.foldlM_nil, bind_pure]
  rfl

/-- A loop within the vector changes the entries it is for. -/
theorem writeWhere_eq_some (h : n ≤ l.length) :
    ∃ l', writeWhere p f n l = some l' ∧ l'.length = l.length ∧
      ∀ i, l'[i]? = if i < n ∧ p i = true then some (f i) else l[i]? := by
  induction n with
  | zero => exact ⟨l, rfl, rfl, by simp⟩
  | succ n ih =>
    obtain ⟨l', hl', hlen, hget⟩ := ih (Nat.le_of_succ_le h)
    rw [writeWhere_succ, hl', Option.bind_some, hlen]
    cases hp : p n with
    | false =>
      refine ⟨l', by simp, hlen, fun i => ?_⟩
      rw [hget]
      by_cases hi : i = n
      · simp [hi, hp]
      · simp only [show i < n + 1 ↔ i < n by omega]
    | true =>
      refine ⟨l'.set n (f n), by simp [Nat.lt_of_succ_le h], by simpa using hlen, fun i => ?_⟩
      rw [List.getElem?_set, hget, hlen]
      by_cases hi : n = i
      · subst hi
        simp [hp, Nat.lt_of_succ_le h]
      · rw [if_neg hi]
        simp only [show i < n + 1 ↔ i < n by omega]

/-- A loop that writes every entry needs a vector of its length. -/
theorem writeBelow_eq (f : Nat → α) (n : Nat) (l : List α) :
    writeBelow f n l = if n ≤ l.length then some ((List.range n).map f ++ l.drop n) else none := by
  split
  · obtain ⟨l', hl', hlen, hget⟩ := writeWhere_eq_some (p := fun _ => true) (f := f) ‹n ≤ l.length›
    rw [writeBelow, hl', Option.some.injEq]
    refine List.ext_getElem? fun i => ?_
    rw [hget, List.getElem?_append, List.length_map, List.length_range]
    by_cases hi : i < n
    · simp [hi]
    · rw [if_neg hi, List.getElem?_drop, if_neg (by simp [hi])]
      congr 1
      omega
  · rename_i hshort
    rw [not_le] at hshort
    obtain ⟨k, rfl⟩ := Nat.exists_eq_add_of_lt hshort
    induction k with
    | zero =>
      obtain ⟨l', hl', hlen, -⟩ :=
        writeWhere_eq_some (p := fun _ => true) (f := f) (le_refl l.length)
      rw [writeBelow, Nat.add_zero, writeWhere_succ, hl']
      simp [hlen]
    | succ k ih =>
      rw [writeBelow, ← Nat.add_assoc, writeWhere_succ]
      rw [writeBelow] at ih
      rw [ih (by omega)]
      rfl

end AVBGraph.Framework
