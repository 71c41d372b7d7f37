import AVBGraph.Vertex.Effects

namespace AVBGraph

open Framework

namespace VertexEdges

variable {S : StdSort} {env : Env} {s : VertexEdges}

theorem stamp_prepare : (s.prepare S env).view.stamp = s.view.stamp := by
  funext k
  show ((s.prepare S env).tmpVb k).timestamp = (s.tmpVb k).timestamp
  rw [tmpVb_prepare]

theorem changes_prepare : (s.prepare S env).view.changes = s.view.changes := by
  funext k
  show ((s.prepare S env).tmpVb k).entries.map VersionEntry.change =
    (s.tmpVb k).entries.map VersionEntry.change
  rw [tmpVb_prepare]

/-- A deletion whose version is pending is younger than every epoch that a reader holds. -/
theorem not_dropped_of_pending (env : Env) {x : Item} (hx : isTmp x.1.block = true) :
    dropped env.oldest x.1 = false := by
  have hlt := env.oldest_lt
  have hge : 2 ^ 31 ≤ x.1.block := by
    by_contra hno
    rw [isTmp_of_lt (not_le.mp hno)] at hx
    cases hx
  have hno : ¬x.1.block < env.oldest := by omega
  simp [dropped, hno]

/-- A merge keeps every head, except that it may drop a published deletion. -/
theorem head_prepare (h : Rep s) (env : Env) (d : Nat) :
    (s.prepare S env).view.head d = s.view.head d ∨
      (s.prepare S env).view.head d = none ∧
        ∃ g, s.view.head d = some g ∧ g.deleted = true ∧ g.pending = false := by
  have hhead : ∀ t : VertexEdges, t.view.head d = (t.item d).map headOf := fun _ => rfl
  rw [hhead, hhead]
  rcases (item_prepare h d : (s.prepare S env).item d = _ ∨ _) with heq | ⟨hnone, x, hx, hdrop⟩
  · left
    rw [heq]
  · right
    rw [hnone, hx]
    refine ⟨rfl, headOf x, rfl, ?_, ?_⟩
    · show isDelete x.1.e = true
      by_contra hno
      simp [dropped, hno] at hdrop
    · show isTmp x.1.block = false
      by_contra hno
      rw [not_dropped_of_pending env (Bool.not_eq_false _ ▸ hno)] at hdrop
      cases hdrop

end VertexEdges

/-- The newest version of an edge with a buffered entry is pending. -/
def View.Buffered (v : View) : Prop :=
  ∀ k, ∀ c ∈ v.changes k, ∃ g, v.head c.key = some g ∧ g.pending = true

namespace VertexEdges

variable {S : StdSort} {s : VertexEdges}

theorem Wf.prepare_of_buffered (h : Wf s) (hbuf : s.view.Buffered) (env : Env) :
    Wf (s.prepare S env) := by
  apply h.prepare
  intro slot x hx y hy
  obtain ⟨g, hg, hp⟩ := hbuf slot x.change (List.mem_map_of_mem hx)
  have hkey : x.change.key = x.key := rfl
  have hhead : s.view.head x.key = some (headOf y) := by
    show (s.item x.key).map headOf = _
    rw [hy]
    rfl
  rw [hkey, hhead] at hg
  apply not_dropped_of_pending
  rw [← Option.some.inj hg] at hp
  exact hp

end VertexEdges

/-- An accepted insertion or deletion. -/
structure Applied where
  delete : Bool
  write : Write
  deriving DecidableEq

/-- The call of insert_edge_block or delete_edge_block. -/
def Applied.op (env : Env) (o : Applied) : Op :=
  if o.delete then .delete env o.write else .insert env o.write

/-- A vertex with its accepted insertions and deletions, oldest first. -/
structure Trace where
  state : VertexEdges
  log : List Applied

namespace Trace

variable {S : StdSort} {h h' : Trace} {env : Env} {w : Write}

def record (h : Trace) (delete : Bool) (w : Write) (r : WriteResult) : Trace :=
  ⟨r.state, if r.accepted then h.log ++ [⟨delete, w⟩] else h.log⟩

/-- One operation. Transform is called for the epoch that owns its slot. -/
def step (b : Build) (S : StdSort) (h : Trace) : Op → Option Trace
  | .insert env w => (h.state.insertEdgeBlock b S env w).map (h.record false w)
  | .delete env w => (h.state.deleteEdgeBlock b S env w).map (h.record true w)
  | .transform epoch vb =>
    if (h.state.tmpVb (epoch % 16)).timestamp = epoch then
      (h.state.transform b S (epoch % 16) vb).map fun r => ⟨r.2, h.log⟩
    else none

/-- The last accepted operation on a destination. -/
def last (log : List Applied) (d : Nat) : Option Applied :=
  (log.filter fun o => o.write.dst = d).getLast?

theorem last_concat (log : List Applied) (o : Applied) (d : Nat) :
    last (log ++ [o]) d = if o.write.dst = d then some o else last log d := by
  unfold last
  rw [List.filter_append]
  by_cases hd : o.write.dst = d
  · simp [hd]
  · simp [hd]

/-- The time of the version that a write replaces: an insertion takes a deletion for none. -/
def replacedTime (delete : Bool) (h : Option Head) : Composite :=
  if delete then h.elim ⟨0, 0⟩ Head.time else View.lastTime h

/-- The outcome of a write on the vertex `v` with its TmpVersionBlock open. -/
inductive Outcome (h h' : Trace) (delete : Bool) (w : Write) (v : View) : Prop
  | refused (log : h'.log = h.log) (view : h'.state.view = v)
  | accepted (pending : Bool) (lastIndex : Nat) (log : h'.log = h.log ++ [⟨delete, w⟩])
      (known : delete = true → v.head w.dst ≠ none)
      (fits : conflicts w.txn (replacedTime delete (v.head w.dst)).e w.epoch = false)
      (view : h'.state.view = v.addVersion delete pending (replacedTime delete (v.head w.dst))
        lastIndex ((v.head w.dst).elim w.weight Head.weight) w)

/-- The log tells whether a write was accepted. -/
theorem accepted_of_log {t : Trace} {delete a : Bool} {r : WriteResult}
    (hlog : (t.record delete w r).log = if a then t.log ++ [⟨delete, w⟩] else t.log) :
    r.accepted = a := by
  have hlog : (if r.accepted then t.log ++ [⟨delete, w⟩] else t.log) =
      if a then t.log ++ [⟨delete, w⟩] else t.log := hlog
  cases hr : r.accepted with
  | true =>
    cases a with
    | true => rfl
    | false => simp [hr] at hlog
  | false =>
    cases a with
    | true => simp [hr] at hlog
    | false => rfl

/-- A deletion counts as no version for the conflict test of an insertion. -/
theorem not_conflicts_deleted {g : Head} (hg : g.deleted = true) :
    conflicts w.txn (View.lastTime (some g)).e w.epoch = false := by
  simp [View.lastTime, hg, conflicts]

theorem insert_cases (hrep : h.state.Rep) (hwf : (h.state.prepare S env).Wf)
    (hlook : (h.state.prepare S env).LookupRight w.dst)
    (hstep : h.step .fineGrain S (.insert env w) = some h') :
    h'.state.Wf ∧ Outcome h h' false w ((h.state.prepare S env).view.openTvb w.epoch) := by
  obtain ⟨r, unset, hr, hwf', -, hview⟩ :=
    VertexEdges.insert_refines hwf (VertexEdges.tmpEv_prepare_lt hrep) hlook
  simp only [step, hr, Option.map_some, Option.some.injEq] at hstep
  subst hstep
  refine ⟨hwf', ?_⟩
  set v := (h.state.prepare S env).view.openTvb w.epoch with hv
  unfold View.insertFine View.insertHead at hview
  split_ifs at hview with hc
  · obtain ⟨hacc, hview⟩ := Prod.mk.inj hview
    apply Outcome.refused
    · simp [record, hacc]
    · have hhead : (v.head w.dst).map (fun g => { g with deleted := false }) = v.head w.dst := by
        cases hg : v.head w.dst with
        | none => rfl
        | some g =>
          have hlive : g.deleted = false := by
            by_contra hno
            rw [hg, not_conflicts_deleted (Bool.not_eq_false _ ▸ hno)] at hc
            cases hc
          rw [Option.map_some, ← hlive]
      rw [hhead, Function.update_eq_self] at hview
      exact hview
  · obtain ⟨hacc, hview⟩ := Prod.mk.inj hview
    apply Outcome.accepted _ _ (by simp [record, hacc]) (fun hd => absurd hd Bool.false_ne_true) _
      hview
    exact Bool.not_eq_true _ ▸ hc

theorem delete_cases (hwf : (h.state.prepare S env).Wf)
    (hlook : (h.state.prepare S env).LookupRight w.dst)
    (hstep : h.step .fineGrain S (.delete env w) = some h') :
    h'.state.Wf ∧ ((h'.log = h.log ∧ h'.state.view = (h.state.prepare S env).view) ∨
      Outcome h h' true w ((h.state.prepare S env).view.openTvb w.epoch)) := by
  obtain ⟨hnone, hsome⟩ := VertexEdges.delete_refines hwf hlook
  cases hg : (h.state.prepare S env).view.head w.dst with
  | none =>
    simp only [step, hnone hg, Option.map_some, Option.some.injEq] at hstep
    subst hstep
    exact ⟨hwf, Or.inl ⟨by simp [record], rfl⟩⟩
  | some g =>
    obtain ⟨r, hr, hwf', -, hview⟩ := hsome g hg
    simp only [step, hr, Option.map_some, Option.some.injEq] at hstep
    subst hstep
    refine ⟨hwf', Or.inr ?_⟩
    have hopen : ((h.state.prepare S env).view.openTvb w.epoch).head w.dst = some g := by
      rw [View.head_openTvb, hg]
    have htime : replacedTime true (some g) = g.time := rfl
    unfold View.deleteFine at hview
    split_ifs at hview with hc
    · obtain ⟨hacc, hview⟩ := Prod.mk.inj hview
      exact Outcome.refused (by simp [record, hacc]) hview
    · obtain ⟨hacc, hview⟩ := Prod.mk.inj hview
      apply Outcome.accepted g.pending (predecessor g.index) (by simp [record, hacc])
      · intro _ hnone
        rw [hopen] at hnone
        cases hnone
      · rw [hopen, htime]
        exact Bool.not_eq_true _ ▸ hc
      · rw [hopen]
        exact hview

theorem transform_cases {epoch vb : Nat} (hwf : h.state.Wf)
    (hstep : h.step .fineGrain S (.transform epoch vb) = some h') :
    h'.state.Wf ∧ h'.log = h.log ∧ h.state.view.stamp (epoch % 16) = epoch ∧
      h'.state.view = h.state.view.transform S (epoch % 16) vb := by
  obtain ⟨n, t, ht, hwf', hview⟩ := VertexEdges.transform_refines (S := S) hwf (epoch % 16) vb
  simp only [step, ht, Option.map_some] at hstep
  split_ifs at hstep with hts
  obtain rfl := Option.some.inj hstep
  exact ⟨hwf', rfl, hts, hview⟩

end Trace

end AVBGraph
