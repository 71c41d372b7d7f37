import Mathlib.Tactic

namespace AVBGraph.Framework

/-- The running minimum of a scan over slots, where `none` is an empty slot. -/
def minSlot : Option Nat → Option Nat → Option Nat
  | none, x => x
  | some m, none => some m
  | some m, some x => some (min m x)

def minWith (m : Nat) : Option Nat → Nat
  | none => m
  | some x => min m x

theorem minWith_le (m : Nat) (x : Option Nat) : minWith m x ≤ m := by
  cases x <;> simp [minWith]

theorem minWith_minSlot_le_left (m : Nat) (x y : Option Nat) :
    minWith m (minSlot x y) ≤ minWith m x := by
  cases x <;> cases y <;> simp [minWith, minSlot]

theorem minWith_minSlot_le_right (m : Nat) (x : Option Nat) (re : Nat) :
    minWith m (minSlot x (some re)) ≤ re := by
  cases x <;> simp [minWith, minSlot]

end AVBGraph.Framework
