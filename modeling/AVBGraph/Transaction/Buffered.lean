import Mathlib.Tactic

namespace AVBGraph

/-- One call of Transaction::INSERT, with an edge or with a non-empty vector of edges. -/
inductive Insert (α : Type)
  | one (edge : α)
  | many (first : α) (rest : List α)
  deriving DecidableEq

def Insert.edges {α : Type} : Insert α → List α
  | .one e => [e]
  | .many e es => e :: es

/-- The edges that a Transaction buffers. `insert_cnt_` has 32 bits, `edgesToInsert` is created when
it is needed, and `oneEdge` is unset before the first call. -/
structure Buffered (α : Type) where
  insertCnt : Nat
  oneEdge : Option α
  edgesToInsert : Option (List α)
  deriving DecidableEq

namespace Buffered

variable {α : Type}

def start : Buffered α := ⟨0, none, none⟩

def checkETI (t : Buffered α) : Buffered α :=
  if t.edgesToInsert.isNone then { t with edgesToInsert := some [] } else t

/-- Appends to the vector that CheckETI provides. -/
def append (t : Buffered α) (es : List α) : Buffered α :=
  let t := t.checkETI
  { t with edgesToInsert := t.edgesToInsert.map (· ++ es) }

/-- The two overloads of INSERT. -/
def insert (t : Buffered α) : Insert α → Buffered α
  | .many e es =>
    let t := if t.insertCnt = 0 then { t with oneEdge := some e } else t
    let t := { t with insertCnt := (t.insertCnt + (e :: es).length) % 2 ^ 32 }
    if 1 < t.insertCnt then t.append es else t
  | .one e =>
    let t := { t with insertCnt := (t.insertCnt + 1) % 2 ^ 32 }
    if t.insertCnt = 1 then { t with oneEdge := some e } else t.append [e]

/-- The edges that execute hands to insert_edge_block, in order. -/
def execute (t : Buffered α) : List α := t.oneEdge.toList ++ t.edgesToInsert.getD []

/-- After `n` edges a vector fits if it comes first and does not wrap the counter to 0 or 1, and an
edge fits if the counter has not wrapped to 0. -/
def Fitting (n : Nat) : Insert α → Prop
  | .one _ => n = 0 ∨ n % 2 ^ 32 ≠ 0
  | .many _ es => n = 0 ∧ (es = [] ∨ 1 < (es.length + 1) % 2 ^ 32)

/-- All calls that follow `n` edges fit. -/
def Fits (n : Nat) : List (Insert α) → Prop
  | [] => True
  | c :: cs => Fitting n c ∧ Fits (n + c.edges.length) cs

/-- The buffer after `n` edges. -/
structure Counts (n : Nat) (t : Buffered α) : Prop where
  cnt : t.insertCnt = n % 2 ^ 32
  unused : n = 0 → t = start
  used : n ≠ 0 → t.oneEdge.isSome

theorem execute_append (t : Buffered α) (es : List α) : (t.append es).execute = t.execute ++ es := by
  obtain ⟨cnt, one, _ | l⟩ := t
  · simp [append, checkETI, execute]
  · simp [append, checkETI, execute]

@[simp] theorem insertCnt_append (t : Buffered α) (es : List α) :
    (t.append es).insertCnt = t.insertCnt := by
  obtain ⟨cnt, one, _ | l⟩ := t <;> rfl

@[simp] theorem oneEdge_append (t : Buffered α) (es : List α) :
    (t.append es).oneEdge = t.oneEdge := by
  obtain ⟨cnt, one, _ | l⟩ := t <;> rfl

theorem length_execute {t : Buffered α} (h : t.oneEdge.isSome) :
    t.execute.length = 1 + (t.edgesToInsert.getD []).length := by
  obtain ⟨e, he⟩ := Option.isSome_iff_exists.mp h
  simp [execute, he]
  omega

section Call

variable {t : Buffered α} {n : Nat} {c : Insert α}

theorem counts_start : Counts 0 (start : Buffered α) :=
  ⟨rfl, fun _ => rfl, fun h => absurd rfl h⟩

/-- The counter and the first edge after a call. -/
theorem Counts.insert (h : Counts n t) : Counts (n + c.edges.length) (t.insert c) := by
  have hcnt : (t.insert c).insertCnt = (n + c.edges.length) % 2 ^ 32 := by
    cases c with
    | one e =>
      simp only [Buffered.insert, Insert.edges, List.length_singleton]
      split_ifs
      · simp [h.cnt]
      · simp [h.cnt]
    | many e es =>
      simp only [Buffered.insert, Insert.edges]
      split_ifs <;> simp [h.cnt]
  refine ⟨hcnt, fun hz => ?_, fun _ => ?_⟩
  · cases c <;> simp [Insert.edges] at hz
  · by_cases hn : n = 0
    · obtain rfl := h.unused hn
      cases c with
      | one e => rfl
      | many e es =>
        simp only [Buffered.insert, start, if_true]
        split_ifs <;> simp
    · have hsome := h.used hn
      cases c with
      | one e =>
        simp only [Buffered.insert]
        split_ifs
        · rfl
        · simpa using hsome
      | many e es =>
        simp only [Buffered.insert]
        split_ifs <;> simp [hsome]

/-- A call that fits buffers its edges. -/
theorem Counts.execute_insert (h : Counts n t) (hc : Fitting n c) :
    (t.insert c).execute = t.execute ++ c.edges := by
  cases c with
  | one e =>
    by_cases hn : n = 0
    · obtain rfl := h.unused hn
      rfl
    · have hwrap : n % 2 ^ 32 ≠ 0 := hc.resolve_left hn
      have hne : (n % 2 ^ 32 + 1) % 2 ^ 32 ≠ 1 := by omega
      simp only [Buffered.insert, h.cnt, if_neg hne, execute_append]
      rfl
  | many e es =>
    obtain ⟨hn, hes⟩ := hc
    obtain rfl := h.unused hn
    rcases hes with rfl | hlt
    · rfl
    · have hlt' : 1 < (0 + (e :: es).length) % 2 ^ 32 := by simpa using hlt
      simp only [Buffered.insert, start, if_true, if_pos hlt', execute_append]
      rfl

/-- A call buffers at most its edges, and fewer if it does not fit. -/
theorem Counts.length_insert (h : Counts n t) :
    (t.insert c).execute.length ≤ t.execute.length + c.edges.length ∧
      (¬Fitting n c → (t.insert c).execute.length < t.execute.length + c.edges.length) := by
  by_cases hc : Fitting n c
  · rw [h.execute_insert hc, List.length_append]
    exact ⟨le_rfl, fun hno => absurd hc hno⟩
  · suffices hlt : (t.insert c).execute.length < t.execute.length + c.edges.length from
      ⟨hlt.le, fun _ => hlt⟩
    cases c with
    | one e =>
      -- the counter has wrapped, so the edge replaces the first one
      have hno : n ≠ 0 ∧ n % 2 ^ 32 = 0 := by simpa [Fitting] using hc
      have hone : (n % 2 ^ 32 + 1) % 2 ^ 32 = 1 := by omega
      simp only [Buffered.insert, h.cnt, if_pos hone]
      rw [length_execute rfl, length_execute (h.used hno.1)]
      exact Nat.lt_succ_self _
    | many e es =>
      by_cases hn : n = 0
      · obtain rfl := h.unused hn
        have hno : es ≠ [] ∧ ¬1 < (es.length + 1) % 2 ^ 32 := by simpa [Fitting, hn] using hc
        have hwrap : ¬1 < (0 + (e :: es).length) % 2 ^ 32 := by simpa using hno.2
        simp only [Buffered.insert, start, if_true, if_neg hwrap]
        have := List.length_pos_of_ne_nil hno.1
        simp [execute, Insert.edges, this]
      · -- the first edge of the vector is lost, or replaces the one before
        have hlen := length_execute (h.used hn)
        have hle : ∀ u : Buffered α, u.oneEdge.isSome → u.edgesToInsert = t.edgesToInsert →
            (if 1 < u.insertCnt then u.append es else u).execute.length ≤
              t.execute.length + es.length := by
          intro u hu heq
          have hulen := length_execute hu
          rw [heq] at hulen
          split_ifs
          · rw [execute_append, List.length_append]
            omega
          · omega
        have hlt : t.execute.length + es.length <
            t.execute.length + (Insert.many e es).edges.length := by simp [Insert.edges]
        apply lt_of_le_of_lt _ hlt
        simp only [Buffered.insert]
        refine hle ⟨_, _, _⟩ ?_ ?_
        · split_ifs
          · rfl
          · exact h.used hn
        · split_ifs <;> rfl

end Call

section Calls

variable {t : Buffered α} {n : Nat}

theorem length_insertAll (cs : List (Insert α)) (h : Counts n t) :
    (cs.foldl insert t).execute.length ≤ t.execute.length + (cs.flatMap Insert.edges).length := by
  induction cs generalizing n t with
  | nil => simp
  | cons c cs ih =>
    have hrest := ih (h.insert (c := c))
    have hcall := (h.length_insert (c := c)).1
    rw [List.foldl_cons, List.flatMap_cons, List.length_append]
    omega

/-- Calls buffer exactly their edges if and only if all of them fit. -/
theorem execute_insertAll (cs : List (Insert α)) (h : Counts n t) :
    (cs.foldl insert t).execute = t.execute ++ cs.flatMap Insert.edges ↔ Fits n cs := by
  induction cs generalizing n t with
  | nil => simp [Fits]
  | cons c cs ih =>
    rw [List.foldl_cons, List.flatMap_cons, Fits]
    by_cases hc : Fitting n c
    · rw [← List.append_assoc, ← h.execute_insert hc, ih h.insert]
      exact (and_iff_right hc).symm
    · have hlt := (h.length_insert (c := c)).2 hc
      have hle := length_insertAll cs (h.insert (c := c))
      refine iff_of_false (fun heq => ?_) fun hfits => hc hfits.1
      have hlen := congrArg List.length heq
      simp only [List.length_append] at hlen hle
      omega

/-- execute inserts all edges of the calls in order, each once, if and only if a vector comes only
as the first call and the counter does not wrap. -/
theorem execute_iff (c : Insert α) (cs : List (Insert α)) :
    ((c :: cs).foldl insert start).execute = (c :: cs).flatMap Insert.edges ↔ Fits 0 (c :: cs) :=
  execute_insertAll (c :: cs) counts_start

/-- The first edge of a second call with a vector is never inserted. -/
theorem execute_lost : ¬∀ (c : Insert Nat) (cs : List (Insert Nat)),
    ((c :: cs).foldl insert start).execute = (c :: cs).flatMap Insert.edges := by
  intro hall
  exact absurd (hall (.one 1) [.many 2 [3]]) (by decide)

end Calls

end Buffered

end AVBGraph
