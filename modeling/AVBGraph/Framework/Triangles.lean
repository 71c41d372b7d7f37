import Mathlib.Data.Finset.Card
import Mathlib.Data.Finset.Prod
import Mathlib.Data.Fintype.Prod
import Mathlib.Data.List.Count
import Mathlib.Tactic

namespace AVBGraph.Framework

section Intersection

variable {α : Type*} [LinearOrder α]

/-- The common elements of two sorted lists, by one pointer into each. -/
def intersect : List α → List α → List α
  | [], _ => []
  | _ :: _, [] => []
  | x :: xs, y :: ys =>
    if x < y then intersect xs (y :: ys)
    else if x > y then intersect (x :: xs) ys
    else x :: intersect xs ys
termination_by xs ys => xs.length + ys.length

theorem intersect_eq_filter {xs ys : List α} (hxs : xs.Pairwise (· < ·))
    (hys : ys.Pairwise (· < ·)) : intersect xs ys = xs.filter (· ∈ ys) := by
  fun_induction intersect xs ys with
  | case1 => rfl
  | case2 => simp
  | case3 x xs y ys hlt ih =>
    have hx : x ∉ y :: ys := by
      rw [List.mem_cons, not_or]
      exact ⟨hlt.ne, fun hmem => lt_asymm hlt (List.rel_of_pairwise_cons hys hmem)⟩
    rw [ih hxs.of_cons hys, List.filter_cons_of_neg (by simpa using hx)]
  | case4 x xs y ys hlt hgt ih =>
    rw [ih hxs hys.of_cons]
    refine List.filter_congr fun z hz => ?_
    have hz : z ≠ y := by
      rcases List.mem_cons.mp hz with rfl | hz
      · exact hgt.ne'
      · exact (hgt.trans (List.rel_of_pairwise_cons hxs hz)).ne'
    simp [hz]
  | case5 x xs y ys hlt hgt ih =>
    obtain rfl : x = y := le_antisymm (not_lt.mp hgt) (not_lt.mp hlt)
    rw [List.filter_cons_of_pos (by simp), ih hxs.of_cons hys.of_cons, List.cons_inj_right]
    refine List.filter_congr fun z hz => ?_
    have hz : z ≠ x := (List.rel_of_pairwise_cons hxs hz).ne'
    simp [hz]

end Intersection

section Orientation

variable {α : Type*} [Fintype α] [DecidableEq α] (adj lt : α → α → Prop) [DecidableRel adj]
  [DecidableRel lt]

/-- The ordered pairs of distinct neighbours of `v` that are adjacent. -/
def adjacentPairs (v : α) : Finset (α × α) :=
  Finset.univ.filter fun p => p.1 ≠ p.2 ∧ adj v p.1 ∧ adj v p.2 ∧ adj p.1 p.2

/-- The triangles, each once: every edge leads upwards. -/
def oriented : Finset (α × α × α) :=
  Finset.univ.filter fun t => (adj t.1 t.2.1 ∧ lt t.1 t.2.1) ∧ (adj t.1 t.2.2 ∧ lt t.1 t.2.2) ∧
    adj t.2.1 t.2.2 ∧ lt t.2.1 t.2.2

variable {adj lt}

theorem mem_adjacentPairs {v : α} {p : α × α} : p ∈ adjacentPairs adj v ↔
    p.1 ≠ p.2 ∧ adj v p.1 ∧ adj v p.2 ∧ adj p.1 p.2 := by
  simp [adjacentPairs]

omit [DecidableEq α] in
theorem mem_oriented {t : α × α × α} : t ∈ oriented adj lt ↔
    (adj t.1 t.2.1 ∧ lt t.1 t.2.1) ∧ (adj t.1 t.2.2 ∧ lt t.1 t.2.2) ∧
      adj t.2.1 t.2.2 ∧ lt t.2.1 t.2.2 := by
  simp [oriented]

theorem card_adjacentPairs_le (v : α) :
    (adjacentPairs adj v).card ≤ (Finset.univ.filter (adj v)).card *
      ((Finset.univ.filter (adj v)).card - 1) := by
  have hsub : adjacentPairs adj v ⊆ (Finset.univ.filter (adj v)).offDiag := by
    intro p hp
    obtain ⟨hne, ha, hb, -⟩ := mem_adjacentPairs.mp hp
    simp [Finset.mem_offDiag, hne, ha, hb]
  calc (adjacentPairs adj v).card ≤ (Finset.univ.filter (adj v)).offDiag.card :=
        Finset.card_le_card hsub
    _ = _ := by rw [Finset.offDiag_card, Nat.mul_sub_one]

variable (lt) [IsStrictTotalOrder α lt]

/-- Half of the pairs lead upwards. -/
theorem card_adjacentPairs_up (hsymm : ∀ u v, adj u v → adj v u) (v : α) :
    (adjacentPairs adj v).card = 2 * ((adjacentPairs adj v).filter fun p => lt p.1 p.2).card := by
  rw [two_mul, ← Finset.card_filter_add_card_filter_not fun p : α × α => lt p.1 p.2]
  congr 1
  refine Finset.card_nbij' Prod.swap Prod.swap ?_ ?_ (fun _ _ => rfl) (fun _ _ => rfl)
  · rintro ⟨a, b⟩ hp
    rw [Finset.mem_coe, Finset.mem_filter, mem_adjacentPairs] at hp ⊢
    obtain ⟨⟨hne, ha, hb, hab⟩, hlt⟩ := hp
    exact ⟨⟨hne.symm, hb, ha, hsymm _ _ hab⟩,
      ((trichotomous_of lt a b).resolve_left hlt).resolve_left hne⟩
  · rintro ⟨a, b⟩ hp
    rw [Finset.mem_coe, Finset.mem_filter, mem_adjacentPairs] at hp ⊢
    obtain ⟨⟨hne, ha, hb, hab⟩, hlt⟩ := hp
    exact ⟨⟨hne.symm, hb, ha, hsymm _ _ hab⟩, asymm_of lt hlt⟩

/-- An upward pair makes `v` the lowest, the middle or the highest corner of its triangle. -/
theorem card_adjacentPairs (hsymm : ∀ u v, adj u v → adj v u) (hirr : ∀ v, ¬adj v v) (v : α) :
    (adjacentPairs adj v).card = 2 * (((oriented adj lt).filter (·.1 = v)).card +
      ((oriented adj lt).filter (·.2.1 = v)).card +
      ((oriented adj lt).filter (·.2.2 = v)).card) := by
  rw [card_adjacentPairs_up lt hsymm]
  congr 1
  set up := (adjacentPairs adj v).filter fun p => lt p.1 p.2 with hup
  have hmem : ∀ p : α × α, p ∈ up ↔ (adj v p.1 ∧ adj v p.2 ∧ adj p.1 p.2) ∧ lt p.1 p.2 := by
    intro p
    rw [hup, Finset.mem_filter, mem_adjacentPairs]
    constructor
    · rintro ⟨⟨-, hp⟩, hlt⟩
      exact ⟨hp, hlt⟩
    · rintro ⟨hp, hlt⟩
      exact ⟨⟨ne_of_irrefl hlt, hp⟩, hlt⟩
  have hlow : (up.filter fun p => lt v p.1).card = ((oriented adj lt).filter (·.1 = v)).card := by
    refine Finset.card_nbij' (fun p => (v, p)) (fun t => t.2) ?_ ?_ (fun _ _ => rfl) ?_
    · intro p hp
      rw [Finset.mem_coe, Finset.mem_filter] at hp ⊢
      rw [hmem] at hp
      obtain ⟨⟨⟨ha, hb, hab⟩, hlt⟩, hva⟩ := hp
      exact ⟨mem_oriented.mpr ⟨⟨ha, hva⟩, ⟨hb, trans_of lt hva hlt⟩, hab, hlt⟩, rfl⟩
    · rintro ⟨u, p⟩ ht
      rw [Finset.mem_coe, Finset.mem_filter] at ht ⊢
      obtain ⟨ht, rfl⟩ := ht
      obtain ⟨⟨ha, hva⟩, ⟨hb, -⟩, hab, hlt⟩ := mem_oriented.mp ht
      exact ⟨(hmem p).mpr ⟨⟨ha, hb, hab⟩, hlt⟩, hva⟩
    · rintro ⟨u, p⟩ ht
      rw [Finset.mem_coe, Finset.mem_filter] at ht
      obtain ⟨-, rfl⟩ := ht
      rfl
  have hhigh : ((up.filter fun p => ¬lt v p.1).filter fun p => lt p.2 v).card =
      ((oriented adj lt).filter (·.2.2 = v)).card := by
    refine Finset.card_nbij' (fun p => (p.1, p.2, v)) (fun t => (t.1, t.2.1)) ?_ ?_
      (fun _ _ => rfl) ?_
    · intro p hp
      rw [Finset.mem_coe, Finset.mem_filter] at hp ⊢
      rw [Finset.mem_filter, hmem] at hp
      obtain ⟨⟨⟨⟨ha, hb, hab⟩, hlt⟩, -⟩, hbv⟩ := hp
      exact ⟨mem_oriented.mpr ⟨⟨hab, hlt⟩, ⟨hsymm _ _ ha, trans_of lt hlt hbv⟩, hsymm _ _ hb, hbv⟩,
        rfl⟩
    · rintro ⟨a, b, u⟩ ht
      rw [Finset.mem_coe, Finset.mem_filter] at ht ⊢
      obtain ⟨ht, rfl⟩ := ht
      obtain ⟨⟨hab, hlt⟩, ⟨ha, hav⟩, hb, hbv⟩ := mem_oriented.mp ht
      exact ⟨Finset.mem_filter.mpr ⟨(hmem (a, b)).mpr ⟨⟨hsymm _ _ ha, hsymm _ _ hb, hab⟩, hlt⟩,
        asymm_of lt hav⟩, hbv⟩
    · rintro ⟨a, b, u⟩ ht
      rw [Finset.mem_coe, Finset.mem_filter] at ht
      obtain ⟨-, rfl⟩ := ht
      rfl
  have hmid : ((up.filter fun p => ¬lt v p.1).filter fun p => ¬lt p.2 v).card =
      ((oriented adj lt).filter (·.2.1 = v)).card := by
    refine Finset.card_nbij' (fun p => (p.1, v, p.2)) (fun t => (t.1, t.2.2)) ?_ ?_
      (fun _ _ => rfl) ?_
    · intro p hp
      rw [Finset.mem_coe, Finset.mem_filter] at hp ⊢
      rw [Finset.mem_filter, hmem] at hp
      obtain ⟨⟨⟨⟨ha, hb, hab⟩, hlt⟩, hva⟩, hbv⟩ := hp
      have hav : lt p.1 v := ((trichotomous_of lt v p.1).resolve_left hva).resolve_left
        fun heq => hirr v (heq ▸ ha)
      have hvb : lt v p.2 := ((trichotomous_of lt p.2 v).resolve_left hbv).resolve_left
        fun heq => hirr v (heq ▸ hb)
      exact ⟨mem_oriented.mpr ⟨⟨hsymm _ _ ha, hav⟩, ⟨hab, hlt⟩, hb, hvb⟩, rfl⟩
    · rintro ⟨a, u, b⟩ ht
      rw [Finset.mem_coe, Finset.mem_filter] at ht ⊢
      obtain ⟨ht, rfl⟩ := ht
      obtain ⟨⟨ha, hav⟩, ⟨hab, hlt⟩, hb, hvb⟩ := mem_oriented.mp ht
      exact ⟨Finset.mem_filter.mpr ⟨(hmem (a, b)).mpr ⟨⟨hsymm _ _ ha, hb, hab⟩, hlt⟩,
        asymm_of lt hav⟩, asymm_of lt hvb⟩
    · rintro ⟨a, u, b⟩ ht
      rw [Finset.mem_coe, Finset.mem_filter] at ht
      obtain ⟨-, rfl⟩ := ht
      rfl
  rw [← hlow, ← hhigh, ← hmid, ← Finset.card_filter_add_card_filter_not fun p => lt v p.1,
    ← Finset.card_filter_add_card_filter_not (s := up.filter fun p => ¬lt v p.1) fun p => lt p.2 v]
  omega

end Orientation

end AVBGraph.Framework
