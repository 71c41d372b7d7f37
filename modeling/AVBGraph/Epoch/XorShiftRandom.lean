import AVBGraph.Framework.Galois

namespace AVBGraph.XorShiftRandom

open Framework Galois Function

/-- XorShiftRandom::seed. -/
def seed (s : BitVec 64) : BitVec 64 := if s ≠ 0 then s else 1

/-- The assignments of rand_int to the state. -/
def next (state : BitVec 64) : BitVec 64 :=
  let state := state ^^^ state <<< 13
  let state := state ^^^ state >>> 7
  state ^^^ state <<< 17

/-- XorShiftRandom::rand_int, with the state after the call. The remainder of a division by zero is
undefined. -/
def randInt (max : BitVec 32) (state : BitVec 64) : Option (BitVec 32 × BitVec 64) :=
  let state := next state
  if max = 0 then none else some ((state % max.setWidth 64).setWidth 32, state)

/-- Calls of rand_int by one thread, one after the other. -/
def randInts (max : BitVec 32) : Nat → BitVec 64 → Option (List (BitVec 32) × BitVec 64)
  | 0, state => some ([], state)
  | n + 1, state => do
    let (r, state) ← randInt max state
    let (rs, state) ← randInts max n state
    return (r :: rs, state)

theorem linear_xorShiftLeft (n : Nat) : Linear fun x : BitVec 64 => x ^^^ x <<< n :=
  Linear.xor (fun _ _ => rfl) fun x y => BitVec.shiftLeft_xor_distrib x y n

theorem linear_xorShiftRight (n : Nat) : Linear fun x : BitVec 64 => x ^^^ x >>> n :=
  Linear.xor (fun _ _ => rfl) fun x y => BitVec.ushiftRight_xor_distrib x y n

theorem linear_next : Linear next :=
  (linear_xorShiftLeft 17).comp ((linear_xorShiftRight 7).comp (linear_xorShiftLeft 13))

/-- The coefficients below `x ^ 64` of the characteristic polynomial of `next`. -/
def taps : BitVec 64 := 0x013ed4a358913201

theorem iterate_next : next^[64] = eval next taps := by
  refine (linear_next.iterate 64).ext (linear_eval linear_next taps) fun i hi => ?_
  revert i
  decide +kernel

def period : Nat := 2 ^ 64 - 1

/-- The primes of the period, with an inverse of `x ^ (period / q) + 1` for each. -/
def units : List (Nat × BitVec 64) :=
  [(3, 0xd742ca58f5d785e2), (5, 0xa3f64d1fb612f669), (17, 0x63f43995a1b49645),
    (257, 0x7d573a75b5260c4d), (641, 0x01ead61508d13286), (65537, 0xed7248a2317d33b1),
    (6700417, 0x483b08aa5d3741b5)]

theorem pow_period : pow taps (shift taps 1) period 64 = 1 := by decide +kernel

theorem mul_units : ∀ u ∈ units,
    mul taps (pow taps (shift taps 1) (period / u.1) 64 ^^^ 1) u.2 = 1 := by decide +kernel

theorem prime_units : ∀ u ∈ units, u.1.Prime := by
  simp only [units, List.forall_mem_cons, List.not_mem_nil]
  norm_num

theorem prod_units : (units.map Prod.fst).prod = period := by decide

/-- Every seed but zero is on the one cycle of length `2 ^ 64 - 1`. -/
theorem minimalPeriod_next {s : BitVec 64} (hs : s ≠ 0) : minimalPeriod next s = period := by
  refine minimalPeriod_eq linear_next iterate_next (n := 64) (by decide) pow_period
    (fun q hq hdvd => ?_) hs
  rw [← prod_units, hq.prime.dvd_prod_iff] at hdvd
  obtain ⟨a, ha, hqa⟩ := hdvd
  obtain ⟨u, hu, rfl⟩ := List.mem_map.mp ha
  rw [(Nat.prime_dvd_prime_iff_eq hq (prime_units u hu)).mp hqa]
  exact ⟨u.2, mul_units u hu⟩

section Calls

variable {max : BitVec 32}

theorem toNat_remainder (hmax : max ≠ 0) (state : BitVec 64) :
    ((state % max.setWidth 64).setWidth 32).toNat = state.toNat % max.toNat := by
  have hpos : 0 < max.toNat := Nat.pos_of_ne_zero fun h => hmax (BitVec.eq_of_toNat_eq h)
  have hwide : max.toNat < 2 ^ 64 := max.isLt.trans (by decide)
  have hlt : state.toNat % max.toNat < 2 ^ 32 := (Nat.mod_lt _ hpos).trans max.isLt
  rw [BitVec.toNat_setWidth, BitVec.toNat_umod, BitVec.toNat_setWidth, Nat.mod_eq_of_lt hwide,
    Nat.mod_eq_of_lt hlt]

/-- The values of the next `n` calls. -/
def draws (max : BitVec 32) (n : Nat) (state : BitVec 64) : List (BitVec 32) :=
  (List.range n).map fun k => (next^[k + 1] state % max.setWidth 64).setWidth 32

theorem randInts_eq (hmax : max ≠ 0) (n : Nat) (state : BitVec 64) :
    randInts max n state = some (draws max n state, next^[n] state) := by
  induction n generalizing state with
  | zero => rfl
  | succ n ih =>
    have hdraws : draws max (n + 1) state =
        (next state % max.setWidth 64).setWidth 32 :: draws max n (next state) := by
      simp [draws, List.range_succ_eq_map, Function.comp_def]
    rw [hdraws, iterate_succ_apply, randInts, randInt, if_neg hmax]
    simp [ih]

theorem lt_of_mem_draws (hmax : max ≠ 0) {n : Nat} {state : BitVec 64} {r : BitVec 32}
    (hr : r ∈ draws max n state) : r.toNat < max.toNat := by
  obtain ⟨k, -, rfl⟩ := List.mem_map.mp hr
  rw [toNat_remainder hmax]
  exact Nat.mod_lt _ (Nat.pos_of_ne_zero fun h => hmax (BitVec.eq_of_toNat_eq h))

theorem count_draws (hmax : max ≠ 0) {s : BitVec 64} (hs : s ≠ 0) {r : BitVec 32}
    (hr : r.toNat < max.toNat) :
    (draws max period s).count r + (if r = 0 then 1 else 0) =
      2 ^ 64 / max.toNat + if r.toNat < 2 ^ 64 % max.toNat then 1 else 0 := by
  have hcount := count_orbit linear_next (N := period) (by decide) (by decide) hs
    (minimalPeriod_next hs) hr
  have hzero : r = 0 ↔ r.toNat = 0 := BitVec.toNat_inj.symm
  have hvalues : (draws max period s).count r =
      (List.range period).countP fun k => (next^[k + 1] s).toNat % max.toNat = r.toNat := by
    rw [draws, List.count, List.countP_map]
    refine List.countP_congr fun k _ => ?_
    rw [comp_apply, beq_iff_eq, decide_eq_true_eq, ← BitVec.toNat_inj, toNat_remainder hmax]
  rw [hvalues]
  simpa only [hzero] using hcount

theorem existsUnique_iterate {s x : BitVec 64} (hs : s ≠ 0) (hx : x ≠ 0) :
    ∃! n, n < period ∧ next^[n] s = x := by
  have hper := minimalPeriod_next hs
  have hmem : x.toNat ∈ List.range' 1 period := by
    have hne : x.toNat ≠ 0 := fun h => hx (BitVec.eq_of_toNat_eq h)
    have hlt := x.isLt
    rw [List.mem_range'_1, period]
    omega
  rw [← (perm_orbit linear_next (by decide) (by decide) hs hper).mem_iff] at hmem
  obtain ⟨k, -, hk⟩ := List.mem_map.mp hmem
  have hlt : (k + 1) % period < period := Nat.mod_lt _ (by decide)
  have hiterate : next^[(k + 1) % period] s = x := by
    have hmod := iterate_mod_minimalPeriod_eq (f := next) (x := s) (n := k + 1)
    rw [hper] at hmod
    rw [hmod]
    exact BitVec.eq_of_toNat_eq hk
  refine ⟨(k + 1) % period, ⟨hlt, hiterate⟩, fun n hn => ?_⟩
  exact (iterate_eq_iterate_iff_of_lt_minimalPeriod (hper ▸ hn.1) (hper ▸ hlt)).mp
    (hn.2.trans hiterate.symm)

theorem iterate_zero (n : Nat) : next^[n] 0 = 0 := iterate_fixed linear_next.zero n

theorem draws_zero (max : BitVec 32) (n : Nat) : draws max n 0 = List.replicate n 0 := by
  refine List.eq_replicate_iff.mpr ⟨by simp [draws], fun r hr => ?_⟩
  obtain ⟨k, -, rfl⟩ := List.mem_map.mp hr
  rw [iterate_zero]
  simp

theorem seed_ne_zero (s : BitVec 64) : seed s ≠ 0 := by
  unfold seed
  split
  · assumption
  · decide

/-- A period of calls after a seed comes back to the seed, has seen every state but zero once, and
has returned each value below `max` as often as it is the remainder of a state. In the state zero,
which no seed sets, every call returns zero. -/
theorem randInt_spec (hmax : max ≠ 0) (s : BitVec 64) :
    (∃ results, randInts max (2 ^ 64 - 1) (seed s) = some (results, seed s) ∧
      (∀ r ∈ results, r.toNat < max.toNat) ∧
      ∀ r : BitVec 32, r.toNat < max.toNat → results.count r + (if r = 0 then 1 else 0) =
        2 ^ 64 / max.toNat + if r.toNat < 2 ^ 64 % max.toNat then 1 else 0) ∧
    (∀ x ≠ 0, ∃! n, n < 2 ^ 64 - 1 ∧ ∃ results, randInts max n (seed s) = some (results, x)) ∧
    ∀ n, randInts max n 0 = some (List.replicate n 0, 0) := by
  have hs := seed_ne_zero s
  refine ⟨⟨draws max period (seed s), ?_, fun r hr => lt_of_mem_draws hmax hr,
    fun r hr => count_draws hmax hs hr⟩, fun x hx => ?_, fun n => ?_⟩
  · have hcycle := iterate_minimalPeriod (f := next) (x := seed s)
    rw [minimalPeriod_next hs] at hcycle
    rw [← period, randInts_eq hmax, hcycle]
  · have hstates (n : Nat) :
        (∃ results, randInts max n (seed s) = some (results, x)) ↔ next^[n] (seed s) = x := by
      simp [randInts_eq hmax]
    simp only [hstates]
    exact existsUnique_iterate hs hx
  · rw [randInts_eq hmax, draws_zero, iterate_zero]

/-- Registrations draw from BATCHTXNNUM values, so that one in ten of a period may open an epoch. -/
theorem randInt_spec_batch : ∃ results,
    randInts 10 (2 ^ 64 - 1) (seed 0) = some (results, 1) ∧ results.count 0 = 2 ^ 64 / 10 := by
  obtain ⟨results, hrun, -, hcount⟩ := (@randInt_spec 10 (by decide) 0).1
  refine ⟨results, hrun, ?_⟩
  have hzero := hcount 0 (by decide)
  have hrest : (0 : BitVec 32).toNat < 2 ^ 64 % (10 : BitVec 32).toNat := by decide
  rw [if_pos rfl, if_pos hrest] at hzero
  exact Nat.add_right_cancel hzero

end Calls

end AVBGraph.XorShiftRandom
