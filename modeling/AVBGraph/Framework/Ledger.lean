import Mathlib.Data.Finset.Card
import Mathlib.Tactic

namespace AVBGraph.Framework

/-- An entry of a log over keys: the key is added, or it is removed. -/
structure Entry (α : Type*) where
  key : α
  removed : Bool
  deriving DecidableEq

namespace Entry

variable {α : Type*} [DecidableEq α]

def apply (x : Entry α) (keys : Finset α) : Finset α :=
  if x.removed then keys.erase x.key else insert x.key keys

/-- What a running counter does with the entry. -/
def delta (x : Entry α) : Int := if x.removed then -1 else 1

/-- The keys that are present after the log. -/
def live (keys : Finset α) (log : List (Entry α)) : Finset α :=
  log.foldl (fun keys x => x.apply keys) keys

def balance (log : List (Entry α)) : Int := (log.map delta).sum

/-- The additions of a key that is present already. -/
def readded (keys : Finset α) : List (Entry α) → Nat
  | [] => 0
  | x :: xs => (if x.removed = false ∧ x.key ∈ keys then 1 else 0) + readded (x.apply keys) xs

/-- The removals of a key that is not present. -/
def reremoved (keys : Finset α) : List (Entry α) → Nat
  | [] => 0
  | x :: xs => (if x.removed = true ∧ x.key ∉ keys then 1 else 0) + reremoved (x.apply keys) xs

/-- The last entry of a key tells whether it is present. -/
theorem mem_live (k : α) (keys : Finset α) (log : List (Entry α)) : k ∈ live keys log ↔
    match (log.filter fun x => x.key = k).getLast? with
    | some x => x.removed = false
    | none => k ∈ keys := by
  induction log using List.reverseRecOn with
  | nil => simp [live]
  | append_singleton log x ih =>
    have hlive : live keys (log ++ [x]) = x.apply (live keys log) := by
      simp [live]
    rw [hlive, List.filter_append]
    by_cases hk : x.key = k
    · cases hr : x.removed <;> simp [hk, apply, hr]
    · have hne : k ≠ x.key := fun h => hk h.symm
      cases hr : x.removed <;> simp [hk, apply, hr, hne, ih]

theorem card_apply (x : Entry α) (keys : Finset α) :
    ((x.apply keys).card : Int) + (if x.removed = false ∧ x.key ∈ keys then 1 else 0 : Nat) =
      keys.card + x.delta + (if x.removed = true ∧ x.key ∉ keys then 1 else 0 : Nat) := by
  unfold apply delta
  by_cases hk : x.key ∈ keys
  · have hpos : 0 < keys.card := Finset.card_pos.mpr ⟨_, hk⟩
    cases hr : x.removed
    · simp [hk]
    · simp only [hk, if_true, Finset.card_erase_of_mem hk, not_true_eq_false, and_false, if_false]
      simp
      omega
  · cases hr : x.removed
    · simp [hk, Finset.card_insert_of_notMem hk]
    · simp [hk]

/-- The counter misses the number of present keys by the additions of present keys and the removals
of absent ones. -/
theorem card_live (keys : Finset α) (log : List (Entry α)) :
    ((live keys log).card : Int) + readded keys log = keys.card + balance log + reremoved keys log := by
  induction log generalizing keys with
  | nil => simp [live, readded, reremoved, balance]
  | cons x xs ih =>
    have hx := card_apply x keys
    have hxs := ih (x.apply keys)
    have hlive : live keys (x :: xs) = live (x.apply keys) xs := rfl
    have hbal : balance (x :: xs) = x.delta + balance xs := by simp [balance]
    rw [hlive, hbal, readded, reremoved]
    push_cast at hx hxs ⊢
    omega

end Entry

end AVBGraph.Framework
