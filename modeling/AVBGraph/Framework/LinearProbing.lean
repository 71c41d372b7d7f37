import Mathlib.Data.Finset.Card
import Mathlib.Logic.Function.Basic
import Mathlib.Tactic

namespace AVBGraph.Framework.LinearProbing

/-- The slot `d` places behind slot `i` in a table of `n` slots. -/
def ahead (n i d : Nat) : Nat := if i + d < n then i + d else i + d - n

/-- How far slot `p` lies behind slot `h`. -/
def dist (n h p : Nat) : Nat := if h ≤ p then p - h else p + n - h

section Cyclic

variable {n h i p q d : Nat}

theorem ahead_lt (hi : i < n) (hd : d ≤ n) : ahead n i d < n := by
  unfold ahead
  split_ifs <;> omega

theorem dist_lt (hh : h < n) (hp : p < n) : dist n h p < n := by
  unfold dist
  split_ifs <;> omega

theorem ahead_zero (hi : i < n) : ahead n i 0 = i := by simp [ahead, hi]

theorem ahead_dist (hh : h < n) (hp : p < n) : ahead n h (dist n h p) = p := by
  unfold ahead dist
  split_ifs <;> omega

theorem dist_ahead (hh : h < n) (hd : d < n) : dist n h (ahead n h d) = d := by
  unfold ahead dist
  split_ifs <;> omega

theorem ahead_succ (hi : i < n) (hd : d < n) : ahead n i (d + 1) = ahead n (ahead n i 1) d := by
  unfold ahead
  split_ifs <;> omega

@[simp] theorem dist_self (n i : Nat) : dist n i i = 0 := by simp [dist]

theorem dist_pos (hi : i < n) (hne : p ≠ i) : 0 < dist n i p := by
  unfold dist
  split_ifs <;> omega

theorem dist_inj (hh : h < n) (hp : p < n) (hq : q < n) (heq : dist n h p = dist n h q) : p = q := by
  rw [← ahead_dist hh hp, heq, ahead_dist hh hq]

/-- A slot in front of `p` on the way from `h` splits the way. -/
theorem dist_split (hh : h < n) (hi : i < n) (hp : p < n) (hlt : dist n h i < dist n h p) :
    dist n h p = dist n h i + dist n i p := by
  unfold dist at *
  split_ifs at * <;> omega

/-- The next slot is one place further behind `i`, unless it is `i` itself. -/
theorem dist_next (hi : i < n) (hp : p < n) (hne : ahead n p 1 ≠ i) :
    dist n i (ahead n p 1) = dist n i p + 1 := by
  unfold dist ahead at *
  split_ifs at * <;> omega

theorem ahead_ne (h0 : 0 < d) (hd : d < n) : ahead n i d ≠ i := by
  unfold ahead
  split_ifs <;> omega

end Cyclic

/-- Steps from slot to slot until one stops the search; `none` when `fuel` rounds do not. -/
def probe (next : Nat → Nat) (stop : Nat → Bool) : Nat → Nat → Option Nat
  | 0, _ => none
  | fuel + 1, i => if stop i then some i else probe next stop fuel (next i)

section Probe

variable {n : Nat} {next : Nat → Nat} {stop : Nat → Bool}

theorem probe_eq (hnext : ∀ i < n, next i = ahead n i 1) {d i fuel : Nat} (hi : i < n) (hd : d < n)
    (hfuel : d < fuel) (hstop : stop (ahead n i d) = true)
    (hbefore : ∀ c < d, stop (ahead n i c) = false) :
    probe next stop fuel i = some (ahead n i d) := by
  induction fuel generalizing d i with
  | zero => omega
  | succ fuel ih =>
    have hzero : ahead n i 0 = i := ahead_zero hi
    cases d with
    | zero =>
      rw [hzero] at hstop ⊢
      rw [probe, if_pos hstop]
    | succ d =>
      have h0 := hbefore 0 (by omega)
      rw [hzero] at h0
      have hi1 : ahead n i 1 < n := ahead_lt hi (by omega)
      have hrest := ih hi1 (by omega : d < n) (by omega)
        (by rw [← ahead_succ hi (by omega)]; exact hstop) fun c hc => by
          rw [← ahead_succ hi (by omega)]
          exact hbefore (c + 1) (by omega)
      rw [probe, h0, if_neg Bool.false_ne_true, hnext i hi, hrest]
      exact congrArg some (ahead_succ hi (by omega)).symm

/-- A search over a table with a stopping slot ends at the first one. -/
theorem exists_probe (stop : Nat → Bool) (hnext : ∀ i < n, next i = ahead n i 1) {i e : Nat} (hi : i < n) (he : e < n)
    (hstop : stop e = true) : ∃ d < n, probe next stop n i = some (ahead n i d) ∧
      stop (ahead n i d) = true ∧ ∀ c < d, stop (ahead n i c) = false := by
  have hex : ∃ d, d < n ∧ stop (ahead n i d) = true :=
    ⟨dist n i e, dist_lt hi he, by rw [ahead_dist hi he]; exact hstop⟩
  have hfind := Nat.find_spec hex
  have hbefore : ∀ c < Nat.find hex, stop (ahead n i c) = false := by
    intro c hc
    have hmin := Nat.find_min hex hc
    cases hs : stop (ahead n i c) with
    | false => rfl
    | true => exact absurd ⟨hc.trans hfind.1, hs⟩ hmin
  exact ⟨Nat.find hex, hfind.1, probe_eq hnext hi hfind.1 hfind.1 hfind.2 hbefore, hfind.2, hbefore⟩

end Probe

section Table

variable {κ : Type*} {n : Nat} {home : κ → Nat} {empty : κ}

/-- A table for linear probing: no key twice, and no gap between the home of a key and its
slot. -/
structure Probed (n : Nat) (home : κ → Nat) (empty : κ) (t : Nat → κ) : Prop where
  inj : ∀ p < n, ∀ q < n, t p ≠ empty → t p = t q → p = q
  path : ∀ p < n, t p ≠ empty → ∀ d < dist n (home (t p)) p, t (ahead n (home (t p)) d) ≠ empty

/-- The table holds exactly the keys of the set. -/
structure Holds (n : Nat) (home : κ → Nat) (empty : κ) (t : Nat → κ) (K : Finset κ) : Prop where
  probed : Probed n home empty t
  mem : ∀ k, k ∈ K ↔ k ≠ empty ∧ ∃ p < n, t p = k

theorem Holds.clear (n : Nat) (home : κ → Nat) (empty : κ) :
    Holds n home empty (fun _ => empty) ∅ where
  probed := ⟨fun _ _ _ _ hne => absurd rfl hne, fun _ _ hne => absurd rfl hne⟩
  mem k := by
    simp only [Finset.notMem_empty, false_iff, not_and, not_exists]
    rintro hne p _ rfl
    exact hne rfl

variable {t : Nat → κ} {K : Finset κ}

/-- A set smaller than its table leaves an empty slot. -/
theorem Holds.exists_empty (h : Holds n home empty t K) (hlt : K.card < n) :
    ∃ e < n, t e = empty := by
  by_contra hfull
  push Not at hfull
  have hle : (Finset.range n).card ≤ K.card := by
    apply Finset.card_le_card_of_injOn t
    · intro p hp
      have hp := Finset.mem_range.mp hp
      exact (h.mem _).mpr ⟨hfull p hp, p, hp, rfl⟩
    · intro p hp q hq heq
      have hp := Finset.mem_range.mp hp
      exact h.probed.inj p hp q (Finset.mem_range.mp hq) (hfull p hp) heq
  rw [Finset.card_range] at hle
  omega

theorem Holds.card_occupied [DecidableEq κ] (h : Holds n home empty t K) :
    ((Finset.range n).filter fun p => t p ≠ empty).card = K.card := by
  apply Finset.card_bij fun p _ => t p
  · intro p hp
    obtain ⟨hp, hne⟩ := Finset.mem_filter.mp hp
    exact (h.mem _).mpr ⟨hne, p, Finset.mem_range.mp hp, rfl⟩
  · intro p hp q hq heq
    obtain ⟨hp, hne⟩ := Finset.mem_filter.mp hp
    obtain ⟨hq, -⟩ := Finset.mem_filter.mp hq
    exact h.probed.inj p (Finset.mem_range.mp hp) q (Finset.mem_range.mp hq) hne heq
  · intro k hk
    obtain ⟨hne, p, hp, rfl⟩ := (h.mem k).mp hk
    exact ⟨p, Finset.mem_filter.mpr ⟨Finset.mem_range.mpr hp, hne⟩, rfl⟩

variable [DecidableEq κ] {next : Nat → Nat} {k : κ}

/-- The search for a key ends in its slot, or in an empty one. -/
theorem Probed.find (h : Probed n home empty t) (hhome : ∀ k, home k < n)
    (hnext : ∀ i < n, next i = ahead n i 1) (hempty : ∃ e < n, t e = empty) (hk : k ≠ empty) :
    ∃ i < n, probe next (fun i => t i = empty ∨ t i = k) n (home k) = some i ∧
      (t i ≠ empty ↔ ∃ p < n, t p = k) ∧ (t i ≠ empty → t i = k) := by
  obtain ⟨e, he, hte⟩ := hempty
  obtain ⟨d, hd, hprobe, hstop, hbefore⟩ := exists_probe
    (fun i => t i = empty ∨ t i = k) hnext (hhome k) he (by simp [hte])
  have hstop : t (ahead n (home k) d) = empty ∨ t (ahead n (home k) d) = k := of_decide_eq_true hstop
  have hi : ahead n (home k) d < n := ahead_lt (hhome k) hd.le
  refine ⟨_, hi, hprobe, ⟨fun hne => ⟨_, hi, hstop.resolve_left hne⟩, ?_⟩, hstop.resolve_left⟩
  rintro ⟨p, hp, rfl⟩ hemp
  -- the path to the key has no gap, so the search does not stop before it
  have hpath := h.path p hp hk
  have hat : t (ahead n (home (t p)) (dist n (home (t p)) p)) = t p := by
    rw [ahead_dist (hhome _) hp]
  rcases lt_trichotomy d (dist n (home (t p)) p) with hlt | heq | hgt
  · exact hpath d hlt hemp
  · rw [heq, hat] at hemp
    exact hk hemp
  · have := hbefore _ hgt
    simp [hat] at this

/-- A key goes to the first empty slot from its home on. -/
theorem Holds.place (h : Holds n home empty t K) (hhome : ∀ k, home k < n)
    (hnext : ∀ i < n, next i = ahead n i 1) (hlt : K.card < n) (hk : k ≠ empty) (hnew : k ∉ K) :
    ∃ i < n, probe next (fun i => t i = empty) n (home k) = some i ∧
      Holds n home empty (Function.update t i k) (insert k K) := by
  obtain ⟨e, he, hte⟩ := h.exists_empty hlt
  obtain ⟨d, hd, hprobe, hstop, hbefore⟩ := exists_probe
    (fun i => t i = empty) hnext (hhome k) he (by simp [hte])
  set i := ahead n (home k) d with hidef
  have hi : i < n := ahead_lt (hhome k) hd.le
  have hti : t i = empty := of_decide_eq_true hstop
  have habsent : ∀ p < n, t p ≠ k := fun p hp heq => hnew ((h.mem k).mpr ⟨hk, p, hp, heq⟩)
  have hkeep : ∀ {q}, t q ≠ empty → Function.update t i k q ≠ empty := by
    intro q hq
    by_cases hqi : q = i
    · rw [hqi, Function.update_self]
      exact hk
    · rwa [Function.update_of_ne hqi]
  refine ⟨i, hi, hprobe, ⟨?_, ?_⟩, ?_⟩
  · intro p hp q hq hne heq
    by_cases hpi : p = i
    · by_cases hqi : q = i
      · rw [hpi, hqi]
      · rw [hpi, Function.update_self, Function.update_of_ne hqi] at heq
        exact absurd heq.symm (habsent q hq)
    · rw [Function.update_of_ne hpi] at hne heq
      by_cases hqi : q = i
      · rw [hqi, Function.update_self] at heq
        exact absurd heq (habsent p hp)
      · rw [Function.update_of_ne hqi] at heq
        exact h.probed.inj p hp q hq hne heq
  · intro p hp hne c hc
    by_cases hpi : p = i
    · rw [hpi, Function.update_self] at hc ⊢
      rw [hidef, dist_ahead (hhome k) hd] at hc
      have := hbefore c hc
      exact hkeep (of_decide_eq_false this)
    · rw [Function.update_of_ne hpi] at hne hc ⊢
      exact hkeep (h.probed.path p hp hne c hc)
  · intro k'
    rw [Finset.mem_insert, h.mem]
    constructor
    · rintro (rfl | ⟨hne, p, hp, rfl⟩)
      · exact ⟨hk, i, hi, Function.update_self _ _ _⟩
      · refine ⟨hne, p, hp, Function.update_of_ne ?_ _ _⟩
        rintro rfl
        exact hne hti
    · rintro ⟨hne, p, hp, rfl⟩
      by_cases hpi : p = i
      · left
        rw [hpi, Function.update_self]
      · rw [Function.update_of_ne hpi] at hne ⊢
        exact Or.inr ⟨hne, p, hp, rfl⟩

end Table

section Rehash

variable {κ : Type*} [DecidableEq κ]

/-- One round of a rehash: a key of the old table goes to the first empty slot of the new one. -/
def rehashStep (next : Nat → Nat) (home : κ → Nat) (empty : κ) (size : Nat) (old : Nat → κ)
    (t : Nat → κ) (i : Nat) : Option (Nat → κ) :=
  if old i = empty then some t
  else (probe next (fun p => t p = empty) size (home (old i))).map fun p =>
    Function.update t p (old i)

variable {n size : Nat} {home home' : κ → Nat} {empty : κ} {old : Nat → κ} {K : Finset κ}
  {next : Nat → Nat}

/-- A rehash into a larger table keeps the keys. -/
theorem Holds.rehash (h : Holds n home empty old K) (hhome : ∀ k, home' k < size)
    (hnext : ∀ i < size, next i = ahead size i 1) (hlt : K.card < size) :
    ∃ t, (List.range n).foldlM (rehashStep next home' empty size old) (fun _ => empty) = some t ∧
      Holds size home' empty t K := by
  have hmem : ∀ i k, k ∈ ((Finset.range i).image old).erase empty ↔
      k ≠ empty ∧ ∃ p < i, old p = k := by
    intro i k
    simp only [Finset.mem_erase, Finset.mem_image, Finset.mem_range]
  have hround : ∀ i ≤ n, ∃ t,
      (List.range i).foldlM (rehashStep next home' empty size old) (fun _ => empty) = some t ∧
        Holds size home' empty t (((Finset.range i).image old).erase empty) := by
    intro i hi
    induction i with
    | zero => exact ⟨_, rfl, by simpa using Holds.clear size home' empty⟩
    | succ i ih =>
      obtain ⟨t, ht, hholds⟩ := ih (by omega)
      rw [List.range_succ, List.foldlM_append, ht]
      by_cases hold : old i = empty
      · refine ⟨t, by simp [rehashStep, hold], ?_⟩
        have hsame : ((Finset.range (i + 1)).image old).erase empty =
            ((Finset.range i).image old).erase empty := by
          rw [Finset.range_add_one, Finset.image_insert, hold, Finset.erase_insert_eq_erase]
        rwa [hsame]
      · have hnew : old i ∉ ((Finset.range i).image old).erase empty := by
          rw [hmem]
          rintro ⟨-, p, hp, heq⟩
          have := h.probed.inj p (by omega) i (by omega) (by rw [heq]; exact hold) heq
          omega
        have hsub : (((Finset.range i).image old).erase empty).card ≤ K.card := by
          apply Finset.card_le_card
          intro k hk
          obtain ⟨hne, p, hp, heq⟩ := (hmem i k).mp hk
          exact (h.mem k).mpr ⟨hne, p, by omega, heq⟩
        obtain ⟨p, -, hprobe, hholds⟩ := hholds.place hhome hnext (by omega) hold hnew
        refine ⟨Function.update t p (old i), by simp [rehashStep, hold, hprobe], ?_⟩
        have hsame : ((Finset.range (i + 1)).image old).erase empty =
            insert (old i) (((Finset.range i).image old).erase empty) := by
          rw [Finset.range_add_one, Finset.image_insert, Finset.erase_insert_of_ne hold]
        rwa [hsame]
  obtain ⟨t, ht, hholds⟩ := hround n le_rfl
  have hall : ((Finset.range n).image old).erase empty = K := by
    ext k
    rw [hmem, h.mem]
  exact ⟨t, ht, hall ▸ hholds⟩

end Rehash

section Removal

variable {κ : Type*} {n : Nat} {home : κ → Nat} {empty : κ} {t : Nat → κ} {K : Finset κ}

/-- Backward-shift deletion with the gap in slot `i` and the scan in slot `j`: a key whose path
leads over the gap moves into it. -/
def shiftBack [DecidableEq κ] (next : Nat → Nat) (home : κ → Nat) (empty : κ) (onPath : Nat → Nat → Nat → Bool) :
    Nat → (Nat → κ) → Nat → Nat → Option (Nat → κ)
  | 0, _, _, _ => none
  | fuel + 1, t, i, j =>
    let j := next j
    if t j = empty then some t
    else if onPath (home (t j)) i j then
      let t := Function.update t i (t j)
      shiftBack next home empty onPath fuel (Function.update t j empty) j j
    else shiftBack next home empty onPath fuel t i j

/-- A table with a gap in slot `i` that is known to disturb no key up to slot `j`. -/
structure Gapped (n : Nat) (home : κ → Nat) (empty : κ) (t : Nat → κ) (i j : Nat) : Prop where
  inj : ∀ p < n, ∀ q < n, t p ≠ empty → t p = t q → p = q
  gap : t i = empty
  path : ∀ p < n, t p ≠ empty → ∀ d < dist n (home (t p)) p,
    ahead n (home (t p)) d ≠ i → t (ahead n (home (t p)) d) ≠ empty
  clear : ∀ p < n, t p ≠ empty → dist n i p ≤ dist n i j →
    dist n (home (t p)) p ≤ dist n (home (t p)) i

/-- Removing a key opens a gap. -/
theorem Probed.remove (h : Probed n home empty t) {i : Nat} (hi : i < n) :
    Gapped n home empty (Function.update t i empty) i i where
  inj p hp q hq hne heq := by
    have hpi : p ≠ i := by
      rintro rfl
      exact hne (Function.update_self _ _ _)
    rw [Function.update_of_ne hpi] at hne heq
    by_cases hqi : q = i
    · rw [hqi, Function.update_self] at heq
      exact absurd heq hne
    · rw [Function.update_of_ne hqi] at heq
      exact h.inj p hp q hq hne heq
  gap := Function.update_self _ _ _
  path p hp hne d hd hdi := by
    have hpi : p ≠ i := by
      rintro rfl
      exact hne (Function.update_self _ _ _)
    rw [Function.update_of_ne hpi] at hne hd hdi ⊢
    rw [Function.update_of_ne hdi]
    exact h.path p hp hne d hd
  clear p hp hne hle := by
    have hpi : p = i := by
      by_contra hpi
      have := dist_pos hi hpi
      rw [dist_self] at hle
      omega
    rw [hpi, Function.update_self] at hne
    exact absurd rfl hne

section Scan

variable {i j : Nat} (h : Gapped n home empty t i j) (hi : i < n) (hj : j < n)
  (hhome : ∀ k, home k < n)
include h hi hj hhome

/-- At the end of the cluster the gap disturbs no key at all. -/
theorem Gapped.close (hend : t (ahead n j 1) = empty) : Probed n home empty t where
  inj := h.inj
  path := by
    intro p hp hne d hd
    apply h.path p hp hne d hd
    rintro rfl
    set i := ahead n (home (t p)) d with hidef
    have hd' : d < n := hd.trans (dist_lt (hhome _) hp)
    have hon : dist n (home (t p)) i < dist n (home (t p)) p := by
      rw [hidef, dist_ahead (hhome _) hd']
      exact hd
    have hsplit := dist_split (hhome (t p)) hi hp hon
    have hfar : dist n i j < dist n i p := by
      by_contra hle
      have := h.clear p hp hne (not_lt.mp hle)
      omega
    have hq : ahead n j 1 < n := ahead_lt hj (by omega)
    by_cases hqi : ahead n j 1 = i
    · -- the scan went around: every other slot lies in front of it
      have hlast : dist n i p ≤ dist n i j := by
        have h1 := dist_lt hi hp
        unfold dist ahead at *
        split_ifs at * <;> omega
      omega
    · have hnext := dist_next hi hj hqi
      have hle : dist n i (ahead n j 1) ≤ dist n i p := by omega
      rcases hle.lt_or_eq with hlt | heq
      · have hqd : dist n (home (t p)) (ahead n j 1) < dist n (home (t p)) p := by
          unfold dist at *
          split_ifs at * <;> omega
        have := h.path p hp hne _ hqd (by rw [ahead_dist (hhome _) hq]; exact hqi)
        rw [ahead_dist (hhome _) hq] at this
        exact this hend
      · have := dist_inj hi hq hp heq
        rw [this] at hend
        exact hne hend

omit hhome in
/-- A key whose path does not lead over the gap stays. -/
theorem Gapped.skip (hne : t (ahead n j 1) ≠ empty)
    (hoff : dist n (home (t (ahead n j 1))) (ahead n j 1) ≤ dist n (home (t (ahead n j 1))) i) :
    Gapped n home empty t i (ahead n j 1) where
  inj := h.inj
  gap := h.gap
  path := h.path
  clear p hp hpne hle := by
    have hqi : ahead n j 1 ≠ i := by
      intro heq
      rw [heq] at hne
      exact hne h.gap
    rw [dist_next hi hj hqi] at hle
    rcases Nat.lt_or_eq_of_le hle with hlt | heq
    · exact h.clear p hp hpne (by omega)
    · rw [← dist_next hi hj hqi] at heq
      rw [dist_inj hi hp (ahead_lt hj (by omega)) heq]
      exact hoff

/-- A key whose path leads over the gap moves into it and leaves a new one. -/
theorem Gapped.move (hne : t (ahead n j 1) ≠ empty)
    (hon : dist n (home (t (ahead n j 1))) i < dist n (home (t (ahead n j 1))) (ahead n j 1)) :
    Gapped n home empty
      (Function.update (Function.update t i (t (ahead n j 1))) (ahead n j 1) empty)
      (ahead n j 1) (ahead n j 1) := by
  set q := ahead n j 1 with hq
  have hqn : q < n := ahead_lt hj (by omega)
  have hqi : i ≠ q := by
    rintro rfl
    exact hne h.gap
  have hself : Function.update (Function.update t i (t q)) q empty i = t q := by
    rw [Function.update_of_ne hqi, Function.update_self]
  have hother : ∀ {p}, p ≠ i → p ≠ q →
      Function.update (Function.update t i (t q)) q empty p = t p := by
    intro p hpi hpq
    rw [Function.update_of_ne hpq, Function.update_of_ne hpi]
  have hgap : Function.update (Function.update t i (t q)) q empty q = empty :=
    Function.update_self _ _ _
  have hfilled : ∀ {p}, p ≠ q → (p = i ∨ t p ≠ empty) →
      Function.update (Function.update t i (t q)) q empty p ≠ empty := by
    intro p hpq hor
    by_cases hpi : p = i
    · rw [hpi, hself]
      exact hne
    · rw [hother hpi hpq]
      exact hor.resolve_left hpi
  refine ⟨?_, hgap, ?_, ?_⟩
  · intro p hp p' hp' hpne heq
    have hpq : p ≠ q := by
      rintro rfl
      exact hpne hgap
    have hpq' : p' ≠ q := by
      rintro rfl
      rw [heq] at hpne
      exact hpne hgap
    by_cases hpi : p = i
    · by_cases hpi' : p' = i
      · rw [hpi, hpi']
      · rw [hpi, hself, hother hpi' hpq'] at heq
        exact absurd (h.inj q hqn p' hp' hne heq).symm hpq'
    · rw [hother hpi hpq] at hpne heq
      by_cases hpi' : p' = i
      · rw [hpi', hself] at heq
        exact absurd (h.inj p hp q hqn hpne heq) hpq
      · rw [hother hpi' hpq'] at heq
        exact h.inj p hp p' hp' hpne heq
  · intro p hp hpne d hd hdq
    have hpq : p ≠ q := by
      rintro rfl
      exact hpne hgap
    by_cases hpi : p = i
    · rw [hpi, hself] at hd hdq ⊢
      have hd' : d < dist n (home (t q)) q := hd.trans hon
      have hdi : ahead n (home (t q)) d ≠ i := by
        intro heq
        rw [← heq, dist_ahead (hhome _) (hd'.trans (dist_lt (hhome _) hqn))] at hd
        omega
      exact hfilled hdq (Or.inr (h.path q hqn hne d hd' hdi))
    · rw [hother hpi hpq] at hpne hd hdq ⊢
      by_cases hdi : ahead n (home (t p)) d = i
      · exact hfilled hdq (Or.inl hdi)
      · exact hfilled hdq (Or.inr (h.path p hp hpne d hd hdi))
  · intro p hp hpne hle
    have hpq : p = q := by
      by_contra hpq
      have := dist_pos hqn hpq
      rw [dist_self] at hle
      omega
    rw [hpq] at hpne
    exact absurd hgap hpne

end Scan

/-- A move keeps the keys. -/
theorem exists_move {i q : Nat} (hi : i < n) (hq : q < n) (hti : t i = empty) {k : κ} (hk : k ≠ empty) :
    (∃ p < n, Function.update (Function.update t i (t q)) q empty p = k) ↔ ∃ p < n, t p = k := by
  constructor
  · rintro ⟨p, hp, heq⟩
    by_cases hpq : p = q
    · rw [hpq, Function.update_self] at heq
      exact absurd heq.symm hk
    · rw [Function.update_of_ne hpq] at heq
      by_cases hpi : p = i
      · rw [hpi, Function.update_self] at heq
        exact ⟨q, hq, heq⟩
      · rw [Function.update_of_ne hpi] at heq
        exact ⟨p, hp, heq⟩
  · rintro ⟨p, hp, rfl⟩
    have hpi : p ≠ i := by
      rintro rfl
      exact hk hti
    by_cases hpq : p = q
    · have hiq : i ≠ q := fun heq => hpi (hpq.trans heq.symm)
      exact ⟨i, hi, by rw [Function.update_of_ne hiq, Function.update_self, hpq]⟩
    · exact ⟨p, hp, by rw [Function.update_of_ne hpq, Function.update_of_ne hpi]⟩

variable [DecidableEq κ] {next : Nat → Nat} {onPath : Nat → Nat → Nat → Bool}

/-- While an empty slot other than the gap lies ahead, the deletion ends and leaves the other
keys reachable. -/
theorem Gapped.shiftBack (hhome : ∀ k, home k < n) (hnext : ∀ i < n, next i = ahead n i 1)
    (hpath : ∀ h < n, ∀ i < n, ∀ j < n, onPath h i j = true ↔ dist n h i < dist n h j)
    (fuel : Nat) {i j m : Nat} (h : Gapped n home empty t i j) (hi : i < n) (hj : j < n) (h0 : 0 < m)
    (hfuel : m ≤ fuel) (hm : m < n) (hend : t (ahead n j m) = empty) (hne : ahead n j m ≠ i) :
    ∃ t', LinearProbing.shiftBack next home empty onPath fuel t i j = some t' ∧
      Probed n home empty t' ∧ ∀ k, k ≠ empty → ((∃ p < n, t' p = k) ↔ ∃ p < n, t p = k) := by
  induction fuel generalizing t i j m with
  | zero => omega
  | succ fuel ih =>
    have hq : ahead n j 1 < n := ahead_lt hj (by omega)
    rw [LinearProbing.shiftBack, hnext j hj]
    by_cases hstop : t (ahead n j 1) = empty
    · rw [if_pos hstop]
      exact ⟨t, rfl, h.close hi hj hhome hstop, fun _ _ => Iff.rfl⟩
    rw [if_neg hstop]
    -- the empty slot is further ahead
    obtain ⟨m, rfl⟩ : ∃ c, m = c + 1 := ⟨m - 1, by omega⟩
    rw [ahead_succ hj (by omega)] at hend hne
    have hm0 : 0 < m := by
      apply Nat.pos_of_ne_zero
      rintro rfl
      apply hstop
      rwa [ahead_zero hq] at hend
    by_cases hon : onPath (home (t (ahead n j 1))) i (ahead n j 1) = true
    · rw [if_pos hon]
      have hmove := h.move hi hj hhome hstop ((hpath _ (hhome _) i hi _ hq).mp hon)
      have hfree : ahead n (ahead n j 1) m ≠ ahead n j 1 := ahead_ne hm0 (by omega)
      obtain ⟨t', ht', hprobed, hkeys⟩ := ih hmove hq hq hm0 (by omega) (by omega)
        (by rw [Function.update_of_ne hfree, Function.update_of_ne hne]; exact hend) hfree
      exact ⟨t', ht', hprobed, fun k hk => (hkeys k hk).trans (exists_move hi hq h.gap hk)⟩
    · rw [if_neg hon]
      have hoff := not_lt.mp ((hpath _ (hhome _) i hi _ hq).not.mp hon)
      exact ih (h.skip hi hj hstop hoff) hi hq hm0 (by omega) (by omega) hend hne

/-- Deletion of a key that is in the table. -/
theorem Holds.remove (h : Holds n home empty t K) (hhome : ∀ k, home k < n)
    (hnext : ∀ i < n, next i = ahead n i 1)
    (hpath : ∀ h < n, ∀ i < n, ∀ j < n, onPath h i j = true ↔ dist n h i < dist n h j)
    (hlt : K.card < n) {i : Nat} (hi : i < n) (hne : t i ≠ empty) :
    ∃ t', LinearProbing.shiftBack next home empty onPath n (Function.update t i empty) i i =
      some t' ∧ Holds n home empty t' (K.erase (t i)) := by
  obtain ⟨e, he, hte⟩ := h.exists_empty hlt
  have hei : e ≠ i := by
    rintro rfl
    exact hne hte
  have hat : ahead n i (dist n i e) = e := ahead_dist hi he
  obtain ⟨t', ht', hprobed, hkeys⟩ := Gapped.shiftBack hhome hnext hpath n (h.probed.remove hi)
    hi hi (dist_pos hi hei) (dist_lt hi he).le (dist_lt hi he)
    (by rw [hat, Function.update_of_ne hei]; exact hte) (by rw [hat]; exact hei)
  refine ⟨t', ht', hprobed, fun k => ?_⟩
  rw [Finset.mem_erase, h.mem]
  constructor
  · rintro ⟨hki, hk, p, hp, rfl⟩
    have hpi : p ≠ i := by
      rintro rfl
      exact hki rfl
    exact ⟨hk, (hkeys _ hk).mpr ⟨p, hp, Function.update_of_ne hpi _ _⟩⟩
  · rintro ⟨hk, hex⟩
    obtain ⟨p, hp, heq⟩ := (hkeys k hk).mp hex
    have hpi : p ≠ i := by
      rintro rfl
      rw [Function.update_self] at heq
      exact hk heq.symm
    rw [Function.update_of_ne hpi] at heq
    refine ⟨?_, hk, p, hp, heq⟩
    rintro rfl
    exact hpi (h.probed.inj p hp i hi (by rw [heq]; exact hne) heq)

end Removal

end AVBGraph.Framework.LinearProbing
