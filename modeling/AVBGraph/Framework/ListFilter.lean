import Mathlib.Data.List.Basic
import Mathlib.Data.List.TakeWhile
import Mathlib.Tactic

namespace AVBGraph.Framework

variable {α : Type*}

/-- With at most one match, filtering finds the match. -/
theorem filter_eq_find? {l : List α} {p : α → Bool}
    (h : l.Pairwise fun x y => p x = true → p y ≠ true) : l.filter p = (l.find? p).toList := by
  induction l with
  | nil => rfl
  | cons x xs ih =>
    obtain ⟨hx, hxs⟩ := List.pairwise_cons.mp h
    cases hp : p x with
    | false => simp [hp, ih hxs]
    | true =>
      have hnil : xs.filter p = [] := List.filter_eq_nil_iff.mpr fun y hy => hx y hy hp
      simp [hp, hnil]

theorem map_modify {β : Type*} {g : α → β} {f : α → α} {f' : β → β}
    (h : ∀ a, g (f a) = f' (g a)) (l : List α) (i : Nat) :
    (l.modify i f).map g = (l.map g).modify i f' := by
  refine List.ext_getElem? fun j => ?_
  simp only [List.getElem?_map, List.getElem?_modify]
  cases l[j]? with
  | none => rfl
  | some a => by_cases hij : i = j <;> simp [hij, h]

/-- Changing the value of a key that occurs once. -/
theorem lookup_modify {β : Type*} [DecidableEq α] {l : List (α × β)} {i : Nat} {a : α}
    (hnodup : (l.map Prod.fst).Nodup) (hi : (l.map Prod.fst)[i]? = some a) (f : β → β) (d : α) :
    (l.modify i (Prod.map id f)).lookup d = if d = a then (l.lookup d).map f else l.lookup d := by
  induction l generalizing i with
  | nil => cases hi
  | cons x l ih =>
    obtain ⟨c, b⟩ := x
    obtain ⟨hc, hl⟩ := List.nodup_cons.mp hnodup
    cases i with
    | zero =>
      obtain rfl : c = a := Option.some.inj hi
      rw [List.modify_zero_cons, Prod.map_apply, id, List.lookup_cons, List.lookup_cons]
      by_cases hd : d = c
      · subst hd
        simp
      · rw [beq_false_of_ne hd, if_neg hd]
    | succ i =>
      have hi : (l.map Prod.fst)[i]? = some a := hi
      have hca : c ≠ a := fun heq => hc (heq ▸ List.mem_of_getElem? hi)
      rw [List.modify_succ_cons, List.lookup_cons, List.lookup_cons, ih hl hi]
      by_cases hd : d = c
      · subst hd
        simp [hca]
      · rw [beq_false_of_ne hd]

theorem getElem?_of_map_eq {β : Type*} {f : α → β} {l : List α} {m : List β} (h : l.map f = m)
    {i : Nat} {b : β} (hb : m[i]? = some b) : ∃ a, l[i]? = some a ∧ f a = b := by
  rw [← h, List.getElem?_map] at hb
  exact Option.map_eq_some_iff.mp hb

theorem mem_modify {l : List α} {i : Nat} {f : α → α} {x : α} (h : x ∈ l.modify i f) :
    ∃ y ∈ l, x = y ∨ x = f y := by
  obtain ⟨j, hj⟩ := List.getElem?_of_mem h
  rw [List.getElem?_modify] at hj
  obtain ⟨y, hy, rfl⟩ := Option.map_eq_some_iff.mp hj
  refine ⟨y, List.mem_of_getElem? hy, ?_⟩
  split_ifs
  · exact Or.inr rfl
  · exact Or.inl rfl

/-- The changed element is the one at the index. -/
theorem mem_modify_at {l : List α} {i : Nat} {f : α → α} {x : α} (h : x ∈ l.modify i f) :
    x ∈ l ∨ ∃ y, l[i]? = some y ∧ x = f y := by
  obtain ⟨j, hj⟩ := List.getElem?_of_mem h
  rw [List.getElem?_modify] at hj
  obtain ⟨y, hy, rfl⟩ := Option.map_eq_some_iff.mp hj
  by_cases hij : i = j
  · right
    rw [hij]
    exact ⟨y, hy, if_pos rfl⟩
  · left
    rw [if_neg hij]
    exact List.mem_of_getElem? hy

theorem modify_append_of_lt {f : α → α} {l : List α} {i : Nat} (h : i < l.length) (m : List α) :
    (l ++ m).modify i f = l.modify i f ++ m := by
  induction l generalizing i with
  | nil => cases h
  | cons x xs ih =>
    cases i with
    | zero => rfl
    | succ i =>
      rw [List.cons_append, List.modify_succ_cons, List.modify_succ_cons, List.cons_append,
        ih (Nat.lt_of_succ_lt_succ h)]

/-- A change that `p` does not see, at an element without `p`. -/
theorem filter_modify_other {p : α → Bool} {f : α → α} (hp : ∀ x, p (f x) = p x) {l : List α}
    {i : Nat} (hi : ∀ x, l[i]? = some x → p x = false) :
    (l.modify i f).filter p = l.filter p := by
  induction l generalizing i with
  | nil => rw [List.modify_nil]
  | cons x xs ih =>
    cases i with
    | zero =>
      have hx : p x = false := hi x rfl
      rw [List.modify_zero_cons, List.filter_cons, List.filter_cons, hp, hx]
      rfl
    | succ i => rw [List.modify_succ_cons, List.filter_cons, List.filter_cons, ih hi]

/-- A change that `p` does not see, at the only element with `p`. -/
theorem filter_modify_only {p : α → Bool} {f : α → α} (hp : ∀ x, p (f x) = p x) {l : List α}
    {i : Nat} {c : α} (hi : l[i]? = some c) (hl : l.filter p = [c]) :
    (l.modify i f).filter p = [f c] := by
  have hc : p c = true := (List.mem_filter.mp (hl ▸ List.mem_singleton_self c)).2
  induction l generalizing i with
  | nil => cases hi
  | cons x xs ih =>
    cases i with
    | zero =>
      obtain rfl : x = c := Option.some.inj hi
      rw [List.filter_cons_of_pos hc] at hl
      rw [List.modify_zero_cons, List.filter_cons_of_pos ((hp x).trans hc), (List.cons.inj hl).2]
    | succ i =>
      have hi : xs[i]? = some c := hi
      cases hx : p x with
      | true =>
        rw [List.filter_cons_of_pos hx] at hl
        have hmem : c ∈ xs.filter p := List.mem_filter.mpr ⟨List.mem_of_getElem? hi, hc⟩
        rw [(List.cons.inj hl).2] at hmem
        cases hmem
      | false =>
        have hno : ¬p x = true := by simp [hx]
        rw [List.filter_cons_of_neg hno] at hl
        rw [List.modify_succ_cons, List.filter_cons_of_neg hno, ih hi hl]

/-- On a list where the elements with `p` come first, the prefix scan misses nothing. -/
theorem takeWhile_eq_filter {p : α → Bool} {l : List α}
    (h : l.Pairwise fun x y => p y = true → p x = true) : l.takeWhile p = l.filter p := by
  induction l with
  | nil => rfl
  | cons x xs ih =>
    obtain ⟨hx, hxs⟩ := List.pairwise_cons.mp h
    cases hp : p x with
    | true => simp [hp, ih hxs]
    | false =>
      have hnil : xs.filter p = [] := List.filter_eq_nil_iff.mpr fun y hy hpy => by
        rw [hx y hy hpy] at hp
        cases hp
      simp [hp, hnil]

theorem dropWhile_eq_filter {p : α → Bool} {l : List α}
    (h : l.Pairwise fun x y => p y = true → p x = true) :
    l.dropWhile p = l.filter fun x => !p x := by
  induction l with
  | nil => rfl
  | cons x xs ih =>
    obtain ⟨hx, hxs⟩ := List.pairwise_cons.mp h
    cases hp : p x with
    | true => simp [hp, ih hxs]
    | false =>
      have hall : xs.filter (fun y => !p y) = xs := List.filter_eq_self.mpr fun y hy => by
        cases hpy : p y with
        | false => rfl
        | true =>
          rw [hx y hy hpy] at hp
          cases hp
      simp [hp, hall]

/-- The prefix scan misses nothing only on a list where the elements with `p` come first. -/
theorem pairwise_of_takeWhile_eq {p : α → Bool} {l : List α} (h : l.takeWhile p = l.filter p) :
    l.Pairwise fun x y => p y = true → p x = true := by
  induction l with
  | nil => exact List.Pairwise.nil
  | cons x xs ih =>
    cases hp : p x with
    | true =>
      rw [List.takeWhile_cons_of_pos hp, List.filter_cons_of_pos hp] at h
      exact List.pairwise_cons.mpr ⟨fun _ _ _ => hp, ih (List.cons.inj h).2⟩
    | false =>
      have hno : ¬p x = true := by simp [hp]
      rw [List.takeWhile_cons_of_neg hno, List.filter_cons_of_neg hno] at h
      have hnone : ∀ y ∈ xs, ¬p y = true := List.filter_eq_nil_iff.mp h.symm
      apply List.pairwise_cons.mpr
      constructor
      · intro y hy hpy
        exact absurd hpy (hnone y hy)
      · exact List.pairwise_of_forall_mem_list fun y _ z hz hpz => absurd hpz (hnone z hz)

theorem takeWhile_sublist_filter (p : α → Bool) (l : List α) :
    (l.takeWhile p).Sublist (l.filter p) := by
  have hself : (l.takeWhile p).filter p = l.takeWhile p :=
    List.filter_eq_self.mpr fun _ hx => List.mem_takeWhile_imp hx
  rw [← hself]
  exact (List.takeWhile_prefix p).sublist.filter p

theorem takeWhile_congr {p q : α → Bool} {l : List α} (h : ∀ x ∈ l, p x = q x) :
    l.takeWhile p = l.takeWhile q := by
  induction l with
  | nil => rfl
  | cons x xs ih =>
    have hx := h x (by simp)
    have hxs := ih fun y hy => h y (by simp [hy])
    cases hq : q x with
    | true => rw [List.takeWhile_cons_of_pos (hx.trans hq), List.takeWhile_cons_of_pos hq, hxs]
    | false =>
      have hno : ¬q x = true := by simp [hq]
      rw [List.takeWhile_cons_of_neg (by rwa [hx]), List.takeWhile_cons_of_neg hno]

theorem filter_eq_filter_iff {p q : α → Bool} {l : List α} :
    l.filter p = l.filter q ↔ ∀ x ∈ l, p x = q x := by
  constructor
  · intro h x hx
    have hmem : x ∈ l.filter p ↔ x ∈ l.filter q := by rw [h]
    rw [List.mem_filter, List.mem_filter] at hmem
    rw [Bool.eq_iff_iff]
    constructor
    · intro hp
      exact (hmem.mp ⟨hx, hp⟩).2
    · intro hq
      exact (hmem.mpr ⟨hx, hq⟩).2
  · exact List.filter_congr

theorem flatMap_filter {β : Type*} (p : α → Bool) (f : α → List β) (l : List α) :
    (l.filter p).flatMap f = l.flatMap fun x => if p x then f x else [] := by
  induction l with
  | nil => rfl
  | cons x xs ih =>
    cases hp : p x with
    | true => simp [hp, ih]
    | false => simp [hp, ih]

/-- Flat maps of parts and of their sublists agree only if all the parts do. -/
theorem flatMap_eq_iff_of_sublist {β : Type*} {f g : α → List β} {l : List α}
    (h : ∀ x ∈ l, (g x).Sublist (f x)) : l.flatMap f = l.flatMap g ↔ ∀ x ∈ l, f x = g x := by
  constructor
  · induction l with
    | nil => simp
    | cons x xs ih =>
      intro heq
      have hx := h x List.mem_cons_self
      have hxs : ∀ y ∈ xs, (g y).Sublist (f y) := fun y hy => h y (List.mem_cons_of_mem _ hy)
      rw [List.flatMap_cons, List.flatMap_cons] at heq
      have hlen : (f x).length = (g x).length := by
        have h1 := congrArg List.length heq
        have h2 := hx.length_le
        have h3 : (xs.flatMap g).length ≤ (xs.flatMap f).length := by
          rw [List.length_flatMap, List.length_flatMap]
          exact List.sum_le_sum fun y hy => (hxs y hy).length_le
        rw [List.length_append, List.length_append] at h1
        omega
      have hfg := (hx.eq_of_length hlen.symm).symm
      rw [hfg] at heq
      exact List.forall_mem_cons.mpr ⟨hfg, ih hxs (List.append_cancel_left heq)⟩
  · exact List.flatMap_congr

/-- A flat map whose other parts are empty. -/
theorem flatMap_single {β : Type*} {f : α → List β} {l : List α} {a : α} (hl : l.Nodup)
    (ha : a ∈ l) (h : ∀ x ∈ l, x ≠ a → f x = []) : l.flatMap f = f a := by
  induction l with
  | nil => cases ha
  | cons x xs ih =>
    obtain ⟨hx, hxs⟩ := List.nodup_cons.mp hl
    rw [List.flatMap_cons]
    by_cases hxa : x = a
    · subst hxa
      have hnil : xs.flatMap f = [] := List.flatMap_eq_nil_iff.mpr fun y hy =>
        h y (by simp [hy]) fun heq => hx (heq ▸ hy)
      rw [hnil, List.append_nil]
    · have ha' : a ∈ xs := (List.mem_cons.mp ha).resolve_left fun heq => hxa heq.symm
      rw [h x (by simp) hxa, List.nil_append]
      exact ih hxs ha' fun y hy => h y (by simp [hy])

/-- A list with strictly increasing keys is the only sorted permutation of itself. -/
theorem eq_of_perm_of_increasing {β : Type*} [LinearOrder β] {f : α → β} {l l' : List α}
    (hp : l.Perm l') (hl : l.Pairwise fun x y => f x ≤ f y)
    (hl' : l'.Pairwise fun x y => f x < f y) : l = l' := by
  have hne : l.Pairwise fun x y => f x ≠ f y :=
    hp.symm.pairwise (hl'.imp fun h => h.ne) fun h => h.symm
  have hlt : l.Pairwise fun x y => f x < f y :=
    (hl.and hne).imp fun ⟨hle, hne⟩ => lt_of_le_of_ne hle hne
  exact hp.eq_of_pairwise (fun a b _ _ hab hba => absurd hba hab.asymm) hlt hl'

/-- A fold whose steps treat the keys apart, seen at one key. -/
theorem foldl_at {β γ : Type*} {f : β → α → β} {g : γ → α → γ} (proj : β → γ) {k : α → Bool}
    (h : ∀ b a, proj (f b a) = if k a then g (proj b) a else proj b) (l : List α) (b : β) :
    proj (l.foldl f b) = (l.filter k).foldl g (proj b) := by
  induction l generalizing b with
  | nil => rfl
  | cons a l ih =>
    rw [List.foldl_cons, ih, h]
    cases hk : k a <;> simp [hk]

end AVBGraph.Framework
