import Mathlib.Data.BitVec
import Mathlib.Data.Int.CardIntervalMod
import Mathlib.Data.Nat.Prime.Basic
import Mathlib.Dynamics.PeriodicPts.Defs
import Mathlib.Logic.Function.Iterate
import Mathlib.Data.List.Perm.Subperm
import Mathlib.Tactic

namespace AVBGraph.Framework.Galois

open Function

variable {w : Nat} {f g φ : BitVec w → BitVec w}

/-- A map of words that respects xor. -/
def Linear (f : BitVec w → BitVec w) : Prop := ∀ x y, f (x ^^^ y) = f x ^^^ f y

theorem Linear.zero (hf : Linear f) : f 0#w = 0#w := by
  have hzero := hf 0#w 0#w
  rwa [BitVec.xor_self, BitVec.xor_self] at hzero

theorem Linear.comp (hf : Linear f) (hg : Linear g) : Linear (f ∘ g) := fun x y => by
  simp only [comp_apply, hg x y]
  exact hf (g x) (g y)

theorem Linear.iterate (hf : Linear f) (n : Nat) : Linear f^[n] := by
  induction n with
  | zero => exact fun _ _ => rfl
  | succ n ih =>
    rw [iterate_succ]
    exact ih.comp hf

theorem Linear.xor (hf : Linear f) (hg : Linear g) : Linear fun x => f x ^^^ g x := fun x y => by
  simp only [hf x y, hg x y]
  ac_rfl

/-- The low bits of a word, one bit more. -/
theorem low_succ (x : BitVec w) (n : Nat) :
    (x.setWidth (n + 1)).setWidth w =
      (x.setWidth n).setWidth w ^^^ if x.getLsbD n then BitVec.twoPow w n else 0#w := by
  refine BitVec.eq_of_getLsbD_eq fun i hi => ?_
  rcases lt_trichotomy i n with hlt | rfl | hgt
  · cases x.getLsbD n <;> simp [hi, hlt, hlt.ne, Nat.lt_succ_of_lt hlt]
  · cases hbit : x[i] <;> simp [hi, hbit]
  · have hle : ¬i < n + 1 := by omega
    cases x.getLsbD n <;> simp [hi, hle, hgt.not_gt, hgt.ne']

/-- Linear maps that agree on every single bit agree. -/
theorem Linear.ext (hf : Linear f) (hg : Linear g)
    (h : ∀ i < w, f (BitVec.twoPow w i) = g (BitVec.twoPow w i)) : f = g := by
  have hlow (x : BitVec w) (n : Nat) (hn : n ≤ w) :
      f ((x.setWidth n).setWidth w) = g ((x.setWidth n).setWidth w) := by
    induction n with
    | zero =>
      have hnil : (x.setWidth 0).setWidth w = 0#w := by simp [BitVec.eq_nil (x.setWidth 0)]
      rw [hnil, hf.zero, hg.zero]
    | succ n ih =>
      rw [low_succ, hf, hg, ih (Nat.le_of_succ_le hn)]
      split
      · rw [h n hn]
      · rw [hf.zero, hg.zero]
  funext x
  simpa using hlow x w le_rfl

/-- The polynomial with the `n` bits of `p` from bit `i` on as coefficients, in `f`, at `x`. -/
def evalFrom (f : BitVec w → BitVec w) (p x : BitVec w) : Nat → Nat → BitVec w
  | _, 0 => 0#w
  | i, n + 1 => (if p.getLsbD i then x else 0#w) ^^^ f (evalFrom f p x (i + 1) n)

def eval (f : BitVec w → BitVec w) (p x : BitVec w) : BitVec w := evalFrom f p x 0 w

theorem linear_evalFrom (hf : Linear f) (p : BitVec w) (i n : Nat) :
    Linear fun x => evalFrom f p x i n := by
  induction n generalizing i with
  | zero => exact fun x y => (BitVec.xor_self (x := 0#w)).symm
  | succ n ih =>
    refine Linear.xor (fun x y => ?_) (hf.comp (ih (i + 1)))
    by_cases hi : p.getLsbD i = true <;> simp [hi]

theorem linear_eval (hf : Linear f) (p : BitVec w) : Linear (eval f p) := linear_evalFrom hf p 0 w

theorem evalFrom_xor (hf : Linear f) (p q x : BitVec w) (i n : Nat) :
    evalFrom f (p ^^^ q) x i n = evalFrom f p x i n ^^^ evalFrom f q x i n := by
  induction n generalizing i with
  | zero => exact (BitVec.xor_self (x := 0#w)).symm
  | succ n ih =>
    have hbit : (if (p ^^^ q).getLsbD i then x else 0#w) =
        (if p.getLsbD i then x else 0#w) ^^^ if q.getLsbD i then x else 0#w := by
      by_cases hp : p.getLsbD i = true <;> by_cases hq : q.getLsbD i = true <;> simp [hp, hq]
    rw [evalFrom, evalFrom, evalFrom, ih, hf, hbit]
    ac_rfl

theorem evalFrom_zero (hf : Linear f) (x : BitVec w) (i n : Nat) : evalFrom f 0#w x i n = 0#w := by
  induction n generalizing i with
  | zero => rfl
  | succ n ih =>
    rw [evalFrom, ih, hf.zero]
    simp

theorem evalFrom_add (hf : Linear f) (p x : BitVec w) (i n : Nat) :
    evalFrom f p x i (n + 1) =
      evalFrom f p x i n ^^^ if p.getLsbD (i + n) then f^[n] x else 0#w := by
  induction n generalizing i with
  | zero =>
    rw [evalFrom, evalFrom, evalFrom, hf.zero]
    simp
  | succ n ih =>
    have hlast : f (if p.getLsbD (i + 1 + n) then f^[n] x else 0#w) =
        if p.getLsbD (i + (n + 1)) then f^[n + 1] x else 0#w := by
      rw [apply_ite f, hf.zero, iterate_succ_apply', Nat.add_assoc, Nat.add_comm 1 n]
    rw [evalFrom, ih, hf, hlast, evalFrom, BitVec.xor_assoc]

theorem evalFrom_shiftLeft (p x : BitVec w) {i n : Nat} (h : i + n < w) :
    evalFrom f (p <<< 1) x (i + 1) n = evalFrom f p x i n := by
  induction n generalizing i with
  | zero => rfl
  | succ n ih =>
    have hi : i + 1 < w := by omega
    have hbit : (p <<< 1).getLsbD (i + 1) = p.getLsbD i := by
      simp [hi, Nat.lt_of_succ_lt hi]
    rw [evalFrom, evalFrom, hbit, ih (by omega)]

/-- A linear map that takes `g` to `f` takes a polynomial in `g` to the one in `f`. -/
theorem map_evalFrom (hφ : Linear φ) (h : ∀ x, φ (g x) = f (φ x)) (p x : BitVec w) (i n : Nat) :
    φ (evalFrom g p x i n) = evalFrom f p (φ x) i n := by
  induction n generalizing i with
  | zero => exact hφ.zero
  | succ n ih => rw [evalFrom, evalFrom, hφ, h, ih, apply_ite φ, hφ.zero]

/-- Times the variable, modulo the polynomial of degree `w` with the other coefficients `p`: one
step of the Galois shift register with the taps `p`. -/
def shift (p a : BitVec w) : BitVec w := a <<< 1 ^^^ if a.msb then p else 0#w

def mul (p a b : BitVec w) : BitVec w := eval (shift p) b a

/-- The power to the low `n` bits of `e`. -/
def pow (p : BitVec w) : BitVec w → Nat → Nat → BitVec w
  | _, _, 0 => 1#w
  | a, e, n + 1 =>
    if e % 2 = 1 then mul p (pow p (mul p a a) (e / 2) n) a else pow p (mul p a a) (e / 2) n

/-- The reduction is sound where `f` satisfies the equation of the polynomial. -/
theorem eval_shift (hf : Linear f) {p : BitVec w} (hp : f^[w] = eval f p) (a x : BitVec w) :
    eval f (shift p a) x = f (eval f a x) := by
  cases w with
  | zero => exact Subsingleton.elim _ _
  | succ w =>
    have hlow : eval f (a <<< 1) x = f (evalFrom f a x 0 w) := by
      rw [eval, evalFrom, evalFrom_shiftLeft a x (by omega)]
      simp
    have hhigh : eval f (if a.msb then p else 0#(w + 1)) x =
        f (if a.getLsbD w then f^[w] x else 0#(w + 1)) := by
      rw [apply_ite f, hf.zero, BitVec.msb_eq_getLsbD_last, Nat.add_sub_cancel]
      split
      · rw [← hp, iterate_succ_apply']
      · exact evalFrom_zero hf x 0 (w + 1)
    have hsplit : eval f a x =
        evalFrom f a x 0 w ^^^ if a.getLsbD w then f^[w] x else 0#(w + 1) := by
      rw [eval, evalFrom_add hf, Nat.zero_add]
    have hshift : eval f (shift p a) x =
        eval f (a <<< 1) x ^^^ eval f (if a.msb then p else 0#(w + 1)) x :=
      evalFrom_xor hf _ _ x 0 (w + 1)
    rw [hshift, hlow, hhigh, ← hf, hsplit]

theorem eval_mul (hf : Linear f) {p : BitVec w} (hp : f^[w] = eval f p) (a b x : BitVec w) :
    eval f (mul p a b) x = eval f b (eval f a x) :=
  map_evalFrom (φ := fun a => eval f a x) (fun a b => evalFrom_xor hf a b x 0 w)
    (fun a => eval_shift hf hp a x) b a 0 w

theorem eval_one (hf : Linear f) (x : BitVec w) : eval f 1#w x = x := by
  cases w with
  | zero => exact Subsingleton.elim _ _
  | succ w =>
    have hrest (i n : Nat) : evalFrom f 1#(w + 1) x (i + 1) n = 0#(w + 1) := by
      induction n generalizing i with
      | zero => rfl
      | succ n ih =>
        rw [evalFrom, ih, hf.zero]
        simp [BitVec.getLsbD_one]
    rw [eval, evalFrom, hrest, hf.zero]
    simp

theorem eval_pow (hf : Linear f) {p : BitVec w} (hp : f^[w] = eval f p) {e n : Nat}
    (he : e < 2 ^ n) (a x : BitVec w) : eval f (pow p a e n) x = (eval f a)^[e] x := by
  induction n generalizing a e with
  | zero =>
    obtain rfl : e = 0 := by omega
    exact eval_one hf x
  | succ n ih =>
    have hhalf : e / 2 < 2 ^ n := by omega
    have hsquare : eval f (mul p a a) = (eval f a)^[2] := funext (eval_mul hf hp a a)
    unfold pow
    split
    · rename_i hodd
      rw [eval_mul hf hp, ih hhalf, hsquare, ← iterate_mul, ← iterate_succ_apply' (eval f a)]
      congr 1
      omega
    · rename_i heven
      rw [ih hhalf, hsquare, ← iterate_mul]
      congr 1
      omega

theorem eval_variable (hf : Linear f) {p : BitVec w} (hp : f^[w] = eval f p) :
    eval f (shift p 1#w) = f := by
  funext x
  rw [eval_shift hf hp, eval_one hf]

theorem iterate_eq_eval (hf : Linear f) {p : BitVec w} (hp : f^[w] = eval f p) {e n : Nat}
    (he : e < 2 ^ n) : f^[e] = eval f (pow p (shift p 1#w) e n) := by
  funext x
  rw [eval_pow hf hp he, eval_variable hf hp]

theorem minimalPeriod_eq_of_primes {α : Type*} {f : α → α} {x : α} {N : Nat}
    (h : IsPeriodicPt f N x) (hprime : ∀ q, q.Prime → q ∣ N → ¬IsPeriodicPt f (N / q) x) :
    minimalPeriod f x = N := by
  obtain ⟨c, hc⟩ := h.minimalPeriod_dvd
  by_contra hne
  have hc1 : c ≠ 1 := by
    rintro rfl
    exact hne (by omega)
  obtain ⟨q, hq, m, rfl⟩ := Nat.exists_prime_and_dvd hc1
  have hquot : N / q = minimalPeriod f x * m := by
    rw [hc, Nat.mul_left_comm, Nat.mul_div_cancel_left _ hq.pos]
  refine hprime q hq ⟨minimalPeriod f x * m, by rw [hc, Nat.mul_left_comm]⟩ ?_
  rw [hquot]
  exact (isPeriodicPt_minimalPeriod f x).mul_const m

/-- The test for a primitive polynomial: the variable to the `N` is one, and to each `N / q` it
differs from one by a unit. Then every word but zero is on a cycle of length `N`. -/
theorem minimalPeriod_eq (hf : Linear f) {p : BitVec w} (hp : f^[w] = eval f p) {N n : Nat}
    (hlt : N < 2 ^ n) (hone : pow p (shift p 1#w) N n = 1#w)
    (hunit : ∀ q, q.Prime → q ∣ N →
      ∃ r, mul p (pow p (shift p 1#w) (N / q) n ^^^ 1#w) r = 1#w)
    {x : BitVec w} (hx : x ≠ 0#w) : minimalPeriod f x = N := by
  refine minimalPeriod_eq_of_primes ?_ fun q hq hdvd hper => ?_
  · rw [IsPeriodicPt, IsFixedPt, iterate_eq_eval hf hp hlt, hone, eval_one hf]
  · obtain ⟨r, hr⟩ := hunit q hq hdvd
    have hiterate : eval f (pow p (shift p 1#w) (N / q) n) x = x := by
      rw [← iterate_eq_eval hf hp ((Nat.div_le_self N q).trans_lt hlt)]
      exact hper
    have hzero : eval f (pow p (shift p 1#w) (N / q) n ^^^ 1#w) x = 0#w := by
      rw [eval, evalFrom_xor hf, ← eval, ← eval, hiterate, eval_one hf, BitVec.xor_self]
    apply hx
    rw [← eval_one hf x, ← hr, eval_mul hf hp, hzero]
    exact (linear_eval hf r).zero

theorem iterate_ne_zero (hf : Linear f) {x : BitVec w} (hx : x ≠ 0#w) (hper : x ∈ periodicPts f)
    (k : Nat) : f^[k] x ≠ 0#w := by
  intro hzero
  obtain ⟨N, hN, h⟩ := hper
  have hback : f^[(N * (k + 1) - k) + k] x = x := by
    have hle : k ≤ N * (k + 1) := (Nat.le_succ k).trans (Nat.le_mul_of_pos_left (k + 1) hN)
    rw [Nat.sub_add_cancel hle]
    exact h.mul_const (k + 1)
  rw [iterate_add_apply, hzero, (hf.iterate _).zero] at hback
  exact hx hback.symm

/-- A cycle of length `2 ^ w - 1` goes through every word but zero, once each. -/
theorem perm_orbit (hf : Linear f) {N : Nat} (hN : N + 1 = 2 ^ w) (hpos : 0 < N) {x : BitVec w}
    (hx : x ≠ 0#w) (hper : minimalPeriod f x = N) :
    ((List.range N).map fun k => (f^[k + 1] x).toNat).Perm (List.range' 1 N) := by
  have hmem : x ∈ periodicPts f := minimalPeriod_pos_iff_mem_periodicPts.mp (hper ▸ hpos)
  have hinj := iterate_injOn_Iio_minimalPeriod (f := f) (x := f x)
  rw [minimalPeriod_apply hmem, hper] at hinj
  have hnodup : ((List.range N).map fun k => (f^[k + 1] x).toNat).Nodup := by
    refine List.Nodup.map_on (fun i hi j hj heq => ?_) List.nodup_range
    exact hinj (List.mem_range.mp hi) (List.mem_range.mp hj) (BitVec.eq_of_toNat_eq heq)
  refine (hnodup.subperm fun y hy => ?_).perm_of_length_le (by simp)
  obtain ⟨k, -, rfl⟩ := List.mem_map.mp hy
  have hne : (f^[k + 1] x).toNat ≠ 0 := fun hzero =>
    iterate_ne_zero hf hx hmem (k + 1) (BitVec.eq_of_toNat_eq hzero)
  have hlt := (f^[k + 1] x).isLt
  rw [List.mem_range'_1]
  omega

/-- How often a remainder is seen on the way around the cycle; zero itself is left out. -/
theorem count_orbit (hf : Linear f) {N : Nat} (hN : N + 1 = 2 ^ w) (hpos : 0 < N) {x : BitVec w}
    (hx : x ≠ 0#w) (hper : minimalPeriod f x = N) {m r : Nat} (hr : r < m) :
    ((List.range N).countP fun k => (f^[k + 1] x).toNat % m = r) + (if r = 0 then 1 else 0) =
      2 ^ w / m + if r < 2 ^ w % m then 1 else 0 := by
  have hperm := (perm_orbit hf hN hpos hx hper).countP_eq fun n => decide (n % m = r)
  have hall := Nat.count_modEq_card (2 ^ w) (Nat.zero_lt_of_lt hr) r
  have hmod (n : Nat) : n ≡ r [MOD m] ↔ n % m = r := by rw [Nat.ModEq, Nat.mod_eq_of_lt hr]
  rw [Nat.mod_eq_of_lt hr, ← hN, Nat.count, List.range_eq_range', List.range'_succ,
    List.countP_cons] at hall
  simp only [hmod, decide_eq_true_eq, Nat.zero_mod, zero_add, eq_comm (a := 0)] at hall
  rw [← hN, ← hall, ← hperm, List.countP_map]
  rfl

end AVBGraph.Framework.Galois
