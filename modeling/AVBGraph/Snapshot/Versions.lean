import AVBGraph.Vertex.Publication

namespace AVBGraph

open Framework

/-- A version of a destination, with the creation time of the version that it replaced. -/
structure Version where
  dst : Nat
  weight : Nat
  old : Composite
  time : Composite
  deriving DecidableEq

/-- The entry of a version, without its links. -/
def Version.change (x : Version) : Change := ⟨x.dst, x.weight, x.old, x.time.i, 0, 0⟩

theorem Version.change_eq_erase {x : Version} {c : Change} : x.change = c.erase ↔
    x.dst = c.edge ∧ x.weight = c.weight ∧ x.old = c.old ∧ x.time.i = c.intra := by
  simp [Version.change, Change.erase]

/-- A record of a version block: a version and when it was replaced. -/
structure Record where
  dst : Nat
  created : Composite
  invalidated : Nat
  weight : Nat
  deriving DecidableEq

def recordAt (r : Item) : Record := ⟨r.1.key, r.1.creation, r.2.index, r.2.e⟩

/-- The newest version of each destination after some writes; `base` is what it was before. -/
def newest (base : Nat → Composite) (ws : List Write) : Nat → Composite :=
  ws.foldl (fun f w => Function.update f w.dst w.time) base

/-- The versions that a list of writes creates one after the other. -/
def versionsFrom (base : Nat → Composite) : List Write → List Version
  | [] => []
  | w :: ws =>
    ⟨w.dst, w.weight, base w.dst, w.time⟩ :: versionsFrom (Function.update base w.dst w.time) ws

section Chain

variable {base : Nat → Composite} {ws : List Write} {w : Write} {d : Nat}

theorem newest_concat : newest base (ws ++ [w]) = Function.update (newest base ws) w.dst w.time := by
  simp [newest]

theorem versionsFrom_concat (base : Nat → Composite) (ws : List Write) (w : Write) :
    versionsFrom base (ws ++ [w]) =
      versionsFrom base ws ++ [⟨w.dst, w.weight, newest base ws w.dst, w.time⟩] := by
  induction ws generalizing base with
  | nil => rfl
  | cons u ws ih =>
    rw [List.cons_append, versionsFrom, ih]
    rfl

/-- The newest version of a destination is its last write. -/
theorem newest_eq_last : newest base ws d =
    (ws.filter fun w => w.dst = d).getLast?.elim (base d) Write.time := by
  induction ws using List.reverseRecOn with
  | nil => rfl
  | append_singleton ws w ih =>
    rw [newest_concat]
    by_cases hd : w.dst = d
    · subst hd
      simp
    · rw [Function.update_of_ne (Ne.symm hd), ih]
      simp [List.filter_append, hd]

theorem newest_mem (h : ∃ x ∈ versionsFrom base ws, x.dst = d) :
    ∃ x ∈ versionsFrom base ws, x.dst = d ∧ x.time = newest base ws d := by
  induction ws using List.reverseRecOn with
  | nil => simp [versionsFrom] at h
  | append_singleton ws w ih =>
    rw [versionsFrom_concat] at h ⊢
    rw [newest_concat]
    by_cases hd : d = w.dst
    · subst hd
      exact ⟨_, List.mem_append_right _ (List.mem_singleton_self _), rfl, by rw [Function.update_self]⟩
    · rw [Function.update_of_ne hd]
      obtain ⟨x, hx, hxd⟩ := h
      rcases List.mem_append.mp hx with hx | hx
      · obtain ⟨y, hy, hyd, ht⟩ := ih ⟨x, hx, hxd⟩
        exact ⟨y, List.mem_append_left _ hy, hyd, ht⟩
      · rw [List.mem_singleton.mp hx] at hxd
        exact absurd hxd.symm hd

/-- Each version replaces the one before it. -/
theorem old_chain (base : Nat → Composite) (ws : List Write) (d : Nat) :
    ((versionsFrom base ws).filter fun x => x.dst = d).map Version.old ++ [newest base ws d] =
      base d :: ((versionsFrom base ws).filter fun x => x.dst = d).map Version.time := by
  induction ws using List.reverseRecOn with
  | nil => rfl
  | append_singleton ws w ih =>
    rw [versionsFrom_concat, newest_concat]
    by_cases hd : w.dst = d
    · subst hd
      rw [Function.update_self, List.filter_append, List.map_append, List.map_append,
        ← List.cons_append, ← ih]
      simp
    · rw [Function.update_of_ne (Ne.symm hd)]
      simpa [List.filter_append, hd] using ih

/-- Along a chain of versions the epochs do not decrease. -/
theorem chain_mono {b n : Composite} {xs : List Version}
    (h : xs.map Version.old ++ [n] = b :: xs.map Version.time)
    (hle : ∀ x ∈ xs, x.old.e ≤ x.time.e) :
    (∀ x ∈ xs, b.e ≤ x.time.e) ∧ xs.Pairwise fun x y => x.time.e ≤ y.time.e := by
  induction xs generalizing b with
  | nil => simp
  | cons x xs ih =>
    simp only [List.map_cons, List.cons_append, List.cons.injEq] at h
    obtain ⟨rfl, hrest⟩ := h
    have hx := hle x (by simp)
    obtain ⟨hall, hpair⟩ := ih hrest fun y hy => hle y (by simp [hy])
    refine ⟨fun y hy => ?_, List.pairwise_cons.mpr ⟨hall, hpair⟩⟩
    rcases List.mem_cons.mp hy with rfl | hy
    · exact hx
    · exact hx.trans (hall y hy)

/-- A chain can be cut anywhere. -/
theorem chain_append {b n : Composite} {xs ys : List Version}
    (h : (xs ++ ys).map Version.old ++ [n] = b :: (xs ++ ys).map Version.time) :
    ∃ m, xs.map Version.old ++ [m] = b :: xs.map Version.time ∧
      ys.map Version.old ++ [n] = m :: ys.map Version.time := by
  induction xs generalizing b with
  | nil => exact ⟨b, rfl, h⟩
  | cons x xs ih =>
    simp only [List.cons_append, List.map_cons, List.cons.injEq] at h
    obtain ⟨hx, hrest⟩ := h
    obtain ⟨m, h1, h2⟩ := ih hrest
    exact ⟨m, by simp [hx, h1], h2⟩

/-- Only the first version of a chain may lack a predecessor, and the last one is the newest. -/
theorem chain_cons {b n : Composite} {x : Version} {xs : List Version}
    (h : (x :: xs).map Version.old ++ [n] = b :: (x :: xs).map Version.time) :
    x.old = b ∧ (∀ y ∈ xs, ∃ z ∈ x :: xs, y.old = z.time) ∧
      (xs = [] ∧ n = x.time ∨ ∃ z ∈ xs, n = z.time) := by
  simp only [List.map_cons, List.cons_append, List.cons.injEq] at h
  obtain ⟨hold, hrest⟩ := h
  refine ⟨hold, fun y hy => ?_, ?_⟩
  · have hmem : y.old ∈ x.time :: xs.map Version.time := by
      rw [← hrest]
      exact List.mem_append_left _ (List.mem_map_of_mem hy)
    rw [← List.map_cons (f := Version.time), List.mem_map] at hmem
    obtain ⟨z, hz, heq⟩ := hmem
    exact ⟨z, hz, heq.symm⟩
  · induction xs using List.reverseRecOn with
    | nil =>
      simp only [List.map_nil, List.nil_append, List.cons.injEq, and_true] at hrest
      exact Or.inl ⟨rfl, hrest⟩
    | append_singleton ys z _ =>
      right
      refine ⟨z, by simp, ?_⟩
      rw [List.map_append (f := Version.time), List.map_singleton, ← List.cons_append] at hrest
      exact (List.append_inj' hrest rfl).2 |> List.cons.inj |>.1

/-- The first version of a destination replaces what was there before. -/
theorem exists_first (h : ∃ x ∈ versionsFrom base ws, x.dst = d) :
    ∃ x ∈ versionsFrom base ws, x.dst = d ∧ x.old = base d := by
  have hchain := old_chain base ws d
  have hsub : ∀ x ∈ (versionsFrom base ws).filter fun x => x.dst = d,
      x ∈ versionsFrom base ws ∧ x.dst = d := fun x hx => by
    obtain ⟨h1, h2⟩ := List.mem_filter.mp hx
    exact ⟨h1, of_decide_eq_true h2⟩
  cases hh : (versionsFrom base ws).filter fun x => x.dst = d with
  | nil =>
    obtain ⟨x, hx, hxd⟩ := h
    exact absurd (decide_eq_true hxd) (List.filter_eq_nil_iff.mp hh x hx)
  | cons x xs =>
    rw [hh] at hchain hsub
    obtain ⟨hx, hxd⟩ := hsub x (by simp)
    exact ⟨x, hx, hxd, (chain_cons hchain).1⟩

end Chain

/-- The entries of one destination in one epoch, in the order of their writes. -/
def changesOf (xs : List Version) (d epoch : Nat) : List Change :=
  (xs.filter fun x => x.dst = d ∧ x.time.e = epoch).map Version.change

/-- One change of Transform as far as weights and records go. -/
def publishStep (o : Nat × List Record) (c : Change) : Nat × List Record :=
  (c.weight, if c.old.e = 0 then o.2 else o.2 ++ [⟨c.key, c.old, c.intra, o.1⟩])

/-- Transform of the entries of one destination whose published weight is `weight`. -/
def outcome (weight : Nat) (cs : List Change) : Nat × List Record :=
  (View.sorted .stable cs).foldl publishStep (weight, [])

/-- Time and weight of a destination once the epochs up to a bound are published. -/
def published (xs : List Version) (d : Nat) (base : Composite × Nat) : Nat → Composite × Nat
  | 0 => base
  | epoch + 1 =>
    match (View.sorted .stable (changesOf xs d (epoch + 1))).getLast? with
    | none => published xs d base epoch
    | some c => (⟨epoch + 1, c.intra⟩, c.weight)

/-- Times and weights of the versions are those of the writes. -/
theorem versionsFrom_map (base : Nat → Composite) (ws : List Write) :
    (versionsFrom base ws).map (fun x => (x.dst, x.weight, x.time)) =
      ws.map fun w => (w.dst, w.weight, w.time) := by
  induction ws generalizing base with
  | nil => rfl
  | cons w ws ih => simp [versionsFrom, ih]

section Published

variable {xs : List Version} {d : Nat} {base : Composite × Nat}

theorem changesOf_eq_nil {epoch : Nat} :
    changesOf xs d epoch = [] ↔ ∀ x ∈ xs, x.dst = d → x.time.e ≠ epoch := by
  simp [changesOf, List.filter_eq_nil_iff]

theorem sorted_nil (S : StdSort) : View.sorted S [] = [] := by
  have h := View.sorted_perm S []
  exact List.perm_nil.mp h

/-- Epochs without entries of the destination publish nothing of it. -/
theorem published_eq_of_gap {p q : Nat} (hpq : p ≤ q)
    (hgap : ∀ x ∈ xs, x.dst = d → x.time.e ≤ p ∨ q < x.time.e) :
    published xs d base q = published xs d base p := by
  induction q, hpq using Nat.le_induction with
  | base => rfl
  | succ q hpq ih =>
    have hnil : changesOf xs d (q + 1) = [] := changesOf_eq_nil.mpr fun x hx hd => by
      have := hgap x hx hd
      omega
    rw [published, hnil, sorted_nil]
    exact ih fun x hx hd => by
      have := hgap x hx hd
      omega

/-- Only the versions of the published epochs matter. -/
theorem published_congr {xs' : List Version} {p : Nat}
    (h : ∀ epoch, 0 < epoch → epoch ≤ p → changesOf xs' d epoch = changesOf xs d epoch) :
    published xs' d base p = published xs d base p := by
  induction p with
  | zero => rfl
  | succ p ih =>
    rw [published, published, h (p + 1) (by omega) le_rfl, ih fun e h0 he => h e h0 (by omega)]

theorem changesOf_concat {x : Version} {epoch : Nat} (h : x.dst = d → x.time.e ≠ epoch) :
    changesOf (xs ++ [x]) d epoch = changesOf xs d epoch := by
  have hx : ¬(x.dst = d ∧ x.time.e = epoch) := fun ⟨hd, he⟩ => h hd he
  simp [changesOf, hx]

theorem published_concat {x : Version} {p : Nat} (h : x.dst = d → p < x.time.e) :
    published (xs ++ [x]) d base p = published xs d base p :=
  published_congr fun epoch _ hle => changesOf_concat fun hd => by
    have := h hd
    omega

theorem outcome_weight (weight : Nat) (cs : List Change) : (outcome weight cs).1 =
    ((View.sorted .stable cs).getLast?).elim weight Change.weight := by
  unfold outcome
  induction View.sorted .stable cs using List.reverseRecOn with
  | nil => rfl
  | append_singleton cs c _ => simp [publishStep]

end Published

end AVBGraph
