import AVBGraph.Framework.Run
import AVBGraph.Algorithm.WCC
import Mathlib.Tactic

namespace AVBGraph.WCC

open Framework Function

/-- The two parallel loops of a round. -/
inductive Direction
  | forward | backward
  deriving DecidableEq

/-- Where a thread stands in the scan of a vertex: the values it has loaded, and the edges left. -/
inductive Pc (max_vid : Nat)
  | idle
  | forward (u my : Fin max_vid) (edges : List (Fin max_vid))
  | forwardStore (u my v : Fin max_vid) (edges : List (Fin max_vid))
  | backward (u : Fin max_vid) (edges : List (Fin max_vid))
  | loadedA (u a v : Fin max_vid) (edges : List (Fin max_vid))
  | loadedB (u a b v : Fin max_vid) (edges : List (Fin max_vid))
  | backwardStore (u m b v : Fin max_vid) (edges : List (Fin max_vid))
  deriving DecidableEq

structure Worker (max_vid : Nat) where
  todo : List (Fin max_vid)
  pc : Pc max_vid
  deriving DecidableEq

/-- The threads of one loop over the shared labels. -/
structure Workers (ι : Type*) (max_vid : Nat) where
  state : State max_vid
  worker : ι → Worker max_vid

namespace Workers

variable {ι : Type*} {max_vid : Nat}

def init (s : State max_vid) (work : ι → List (Fin max_vid)) : Workers ι max_vid :=
  ⟨s, fun t => ⟨work t, .idle⟩⟩

/-- `components[v] = label` with the store to `changed`. -/
def write (s : State max_vid) (v label : Fin max_vid) : State max_vid :=
  ⟨update s.components v label, true⟩

/-- The next step of a thread, with at most one access to the labels: the state and the pc that it
leaves. -/
def stepPc (s : State max_vid) : Pc max_vid → State max_vid × Pc max_vid
  | .idle => (s, .idle)
  | .forward _ _ [] => (s, .idle)
  | .forward u my (v :: edges) =>
    (s, if my < s.components v then .forwardStore u my v edges else .forward u my edges)
  | .forwardStore u my v edges => (write s v my, .forward u my edges)
  | .backward _ [] => (s, .idle)
  | .backward u (v :: edges) => (s, .loadedA u (s.components u) v edges)
  | .loadedA u a v edges => (s, .loadedB u a (s.components v) v edges)
  | .loadedB u a b v edges =>
    (if a ≠ min a b then write s u (min a b) else s, .backwardStore u (min a b) b v edges)
  | .backwardStore u m b v edges => (if b ≠ m then write s v m else s, .backward u edges)

/-- The first step of a thread in the scan of a vertex. -/
def startPc (g : Adjacency max_vid) (s : State max_vid) (u : Fin max_vid) :
    Direction → Pc max_vid
  | .forward => if g.degree u = 0 then .idle else .forward u (s.components u) (g.edges u)
  | .backward => .backward u (g.edges u)

def step [DecidableEq ι] (g : Adjacency max_vid) (direction : Direction) (s : Workers ι max_vid)
    (t : ι) : Option (Workers ι max_vid) :=
  match s.worker t with
  | ⟨[], .idle⟩ => none
  | ⟨u :: todo, .idle⟩ =>
    some ⟨s.state, update s.worker t ⟨todo, startPc g s.state u direction⟩⟩
  | ⟨todo, pc⟩ =>
    some ⟨(stepPc s.state pc).1, update s.worker t ⟨todo, (stepPc s.state pc).2⟩⟩

end Workers

variable {max_vid : Nat}

/-- A parallel loop over all vertices, on some number of threads in some order of their steps. -/
def Sweep (g : Adjacency max_vid) (direction : Direction) (s s' : State max_vid) : Prop :=
  ∃ (threads : Nat) (work : Fin threads → List (Fin max_vid)) (es : List (Fin threads))
    (r : Workers (Fin threads) max_vid), (∀ u, ∃ t, u ∈ work t) ∧
    exec (Workers.step g direction) (.init s work) es = some r ∧
    (∀ t, r.worker t = ⟨[], .idle⟩) ∧ r.state = s'

/-- The loop with `rounds` rounds left. -/
inductive ParallelLoop (g : Adjacency max_vid) : Nat → State max_vid → State max_vid → Prop
  | out (s : State max_vid) : ParallelLoop g 0 s s
  | stable {rounds : Nat} {s : State max_vid} (h : s.changed = false) :
    ParallelLoop g (rounds + 1) s s
  | round {rounds : Nat} {s s₁ s₂ r : State max_vid} (h : s.changed = true)
    (hforward : Sweep g .forward { s with changed := false } s₁)
    (hbackward : Sweep g .backward s₁ s₂) (hrest : ParallelLoop g rounds s₂ r) :
    ParallelLoop g (rounds + 1) s r

/-! ### Labels below their vertices and in their components -/

/-- What a label of a vertex may be. -/
def Label (g : Adjacency max_vid) (v label : Fin max_vid) : Prop := label ≤ v ∧ g.Connected v label

/-- What a thread may store is a label. -/
def SoundPc (g : Adjacency max_vid) : Pc max_vid → Prop
  | .idle => True
  | .forward u my edges => Label g u my ∧ edges ⊆ g.edges u
  | .forwardStore u my v edges => Label g u my ∧ Label g v my ∧ edges ⊆ g.edges u
  | .backward u edges => edges ⊆ g.edges u
  | .loadedA u a v edges => Label g u a ∧ v :: edges ⊆ g.edges u
  | .loadedB u a b v edges => Label g u a ∧ Label g v b ∧ v :: edges ⊆ g.edges u
  | .backwardStore u m b v edges => (b ≠ m → Label g v m) ∧ v :: edges ⊆ g.edges u

variable {g : Adjacency max_vid} {s s' : State max_vid}

/-- The label of a neighbour that is smaller than a label of the vertex. -/
theorem Label.along (hsymm : g.Symmetric) {u v a b : Fin max_vid} (hv : v ∈ g.edges u)
    (ha : Label g u a) (hb : Label g v b) :
    (b < a → Label g u b) ∧ (a < b → Label g v a) :=
  ⟨fun h => ⟨h.le.trans ha.1, .head hv hb.2⟩,
    fun h => ⟨h.le.trans hb.1, .head (hsymm u v hv) ha.2⟩⟩

theorem label_write (h : ∀ v, Label g v (s.components v)) {u label : Fin max_vid}
    (hlabel : Label g u label) (v : Fin max_vid) : Label g v ((Workers.write s u label).components v) := by
  by_cases hv : v = u
  · subst v
    simpa [Workers.write] using hlabel
  · simpa [Workers.write, hv] using h v

theorem sound_stepPc (hsymm : g.Symmetric) (h : ∀ v, Label g v (s.components v)) {pc : Pc max_vid}
    (hpc : SoundPc g pc) : (∀ v, Label g v ((Workers.stepPc s pc).1.components v)) ∧
      SoundPc g (Workers.stepPc s pc).2 := by
  match pc, hpc with
  | .idle, _ => exact ⟨h, trivial⟩
  | .forward _ _ [], _ => exact ⟨h, trivial⟩
  | .forward u my (v :: edges), ⟨hmy, hedges⟩ =>
    obtain ⟨hv, hrest⟩ := List.cons_subset.mp hedges
    refine ⟨h, ?_⟩
    simp only [Workers.stepPc]
    split
    · exact ⟨hmy, (hmy.along hsymm hv (h v)).2 ‹_›, hrest⟩
    · exact ⟨hmy, hrest⟩
  | .forwardStore u my v edges, ⟨hmy, hv, hrest⟩ => exact ⟨label_write h hv, hmy, hrest⟩
  | .backward _ [], _ => exact ⟨h, trivial⟩
  | .backward u (v :: edges), hedges => exact ⟨h, h u, hedges⟩
  | .loadedA u a v edges, ⟨ha, hedges⟩ => exact ⟨h, ha, h v, hedges⟩
  | .loadedB u a b v edges, ⟨ha, hb, hedges⟩ =>
    obtain ⟨hu, hv⟩ := ha.along hsymm (List.cons_subset.mp hedges).1 hb
    refine ⟨?_, fun hne => ?_, hedges⟩
    · simp only [Workers.stepPc]
      split
      · rename_i hne
        have hlt : b < a := lt_of_not_ge fun hle => hne (min_eq_left hle).symm
        rw [min_eq_right hlt.le]
        exact label_write h (hu hlt)
      · exact h
    · have hlt : a < b := lt_of_not_ge fun hle => hne (min_eq_right hle).symm
      rw [min_eq_left hlt.le]
      exact hv hlt
  | .backwardStore u m b v edges, ⟨hm, hedges⟩ =>
    refine ⟨?_, (List.cons_subset.mp hedges).2⟩
    simp only [Workers.stepPc]
    split
    · rename_i hne
      exact label_write h (hm hne)
    · exact h

/-! ### A loop of all threads -/

namespace Workers

variable {ι : Type*} [DecidableEq ι] {direction : Direction} {w w' : Workers ι max_vid} {t : ι}

/-- A step begins the scan of a vertex, or goes on with one. -/
inductive Event (g : Adjacency max_vid) (direction : Direction) (w : Workers ι max_vid) (t : ι) :
    Workers ι max_vid → Prop
  | starts {u : Fin max_vid} {todo : List (Fin max_vid)} (hb : w.worker t = ⟨u :: todo, .idle⟩) :
      Event g direction w t
        ⟨w.state, update w.worker t ⟨todo, startPc g w.state u direction⟩⟩
  | goesOn {todo : List (Fin max_vid)} {pc : Pc max_vid} (hb : w.worker t = ⟨todo, pc⟩) :
      Event g direction w t
        ⟨(stepPc w.state pc).1, update w.worker t ⟨todo, (stepPc w.state pc).2⟩⟩

theorem event_of_step (h : step g direction w t = some w') : Event g direction w t w' := by
  unfold step at h
  split at h
  · cases h
  · rename_i hb
    obtain rfl := Option.some.inj h
    exact .starts hb
  · rename_i hb
    obtain rfl := Option.some.inj h
    exact .goesOn hb

/-- All labels and all registers are sound. -/
structure Sound (g : Adjacency max_vid) (w : Workers ι max_vid) : Prop where
  labels : ∀ v, Label g v (w.state.components v)
  pcs : ∀ t, SoundPc g (w.worker t).pc

theorem sound_pcs (h : Sound g w) {b : Worker max_vid} (hb : SoundPc g b.pc) (u : ι) :
    SoundPc g (update w.worker t b u).pc := by
  by_cases hu : u = t
  · subst u
    simpa using hb
  · simpa [hu] using h.pcs u

theorem Sound.step (hsymm : g.Symmetric) (h : Sound g w)
    (hstep : step g direction w t = some w') : Sound g w' := by
  cases event_of_step hstep with
  | @starts u todo hb =>
    refine ⟨h.labels, sound_pcs h ?_⟩
    cases direction with
    | forward =>
      simp only [startPc]
      split
      · trivial
      · exact ⟨h.labels u, List.Subset.refl _⟩
    | backward => exact List.Subset.refl _
  | @goesOn todo pc hb =>
    have hpc := h.pcs t
    rw [hb] at hpc
    obtain ⟨hlabels, hnext⟩ := sound_stepPc hsymm h.labels hpc
    exact ⟨hlabels, sound_pcs h hnext⟩

/-! ### A loop that changes nothing -/

/-- Every store to a label is flagged. -/
theorem stepPc_same (s : State max_vid) (pc : Pc max_vid) :
    (stepPc s pc).1 = s ∨ (stepPc s pc).1.changed = true := by
  cases pc with
  | idle => exact .inl rfl
  | forward u my edges => cases edges <;> exact .inl rfl
  | forwardStore u my v edges => exact .inr rfl
  | backward u edges => cases edges <;> exact .inl rfl
  | loadedA u a v edges => exact .inl rfl
  | loadedB u a b v edges =>
    simp only [stepPc]
    split
    · exact .inr rfl
    · exact .inl rfl
  | backwardStore u m b v edges =>
    simp only [stepPc]
    split
    · exact .inr rfl
    · exact .inl rfl

/-- The edges that a scan in the backward direction has not finished. -/
def pcLeft : Pc max_vid → List (Fin max_vid × Fin max_vid)
  | .backward u edges => edges.map fun v => (u, v)
  | .loadedA u _ v edges | .loadedB u _ _ v edges | .backwardStore u _ _ v edges =>
    (v :: edges).map fun v => (u, v)
  | _ => []

def left (g : Adjacency max_vid) (b : Worker max_vid) : List (Fin max_vid × Fin max_vid) :=
  pcLeft b.pc ++ b.todo.flatMap fun u => (g.edges u).map fun v => (u, v)

/-- The registers of a thread that has loaded labels `c`. -/
def LoadedPc (c : Fin max_vid → Fin max_vid) : Pc max_vid → Prop
  | .idle | .backward _ _ => True
  | .loadedA u a _ _ => a = c u
  | .loadedB u a b v _ => a = c u ∧ b = c v
  | .backwardStore u m b v _ => m = c u ∧ b = c v
  | .forward _ _ _ | .forwardStore _ _ _ _ => False

theorem loaded_stepPc {c : Fin max_vid → Fin max_vid} {pc : Pc max_vid} (hpc : LoadedPc c pc)
    (hc : s.components = c) (hquiet : (stepPc s pc).1.changed = false) :
    LoadedPc c (stepPc s pc).2 ∧
      ∀ e ∈ pcLeft pc, e ∈ pcLeft (stepPc s pc).2 ∨ c e.1 = c e.2 := by
  cases pc with
  | idle => exact ⟨trivial, by simp [pcLeft]⟩
  | forward u my edges => exact hpc.elim
  | forwardStore u my v edges => exact hpc.elim
  | backward u edges =>
    cases edges with
    | nil => exact ⟨trivial, by simp [pcLeft]⟩
    | cons v edges => exact ⟨hc ▸ rfl, fun e he => .inl he⟩
  | loadedA u a v edges => exact ⟨⟨hpc, hc ▸ rfl⟩, fun e he => .inl he⟩
  | loadedB u a b v edges =>
    have hmin : a = min a b := by
      by_contra hne
      simp [stepPc, hne, write] at hquiet
    exact ⟨⟨hmin ▸ hpc.1, hpc.2⟩, fun e he => .inl he⟩
  | backwardStore u m b v edges =>
    have hsame : b = m := by
      by_contra hne
      simp [stepPc, hne, write] at hquiet
    refine ⟨trivial, fun e he => ?_⟩
    rcases List.mem_cons.mp he with rfl | he
    · exact .inr (hpc.1.symm.trans (hsame ▸ hpc.2))
    · exact .inl he

/-- As long as nothing has changed the labels are those of the start, and agree along every edge
that is done. -/
structure Quiet (g : Adjacency max_vid) (c : Fin max_vid → Fin max_vid)
    (work : ι → List (Fin max_vid)) (w : Workers ι max_vid) : Prop where
  same : w.state.components = c
  pcs : ∀ t, LoadedPc c (w.worker t).pc
  edges : ∀ t, ∀ u ∈ work t, ∀ v ∈ g.edges u, (u, v) ∈ left g (w.worker t) ∨ c u = c v

theorem Quiet.update {c : Fin max_vid → Fin max_vid} {work : ι → List (Fin max_vid)}
    (h : Quiet g c work w) {state : State max_vid} {b : Worker max_vid} (hstate : state.components = c)
    (hpc : LoadedPc c b.pc) (hleft : ∀ e ∈ left g (w.worker t), e ∈ left g b ∨ c e.1 = c e.2) :
    Quiet g c work ⟨state, update w.worker t b⟩ := by
  refine ⟨hstate, fun u => ?_, fun u x hx v hv => ?_⟩
  · by_cases hu : u = t
    · subst u
      simpa using hpc
    · simpa [hu] using h.pcs u
  · by_cases hu : u = t
    · subst u
      simp only [update_self]
      rcases h.edges t x hx v hv with hmem | heq
      · exact hleft _ hmem
      · exact .inr heq
    · simpa [hu] using h.edges u x hx v hv

theorem Quiet.step {c : Fin max_vid → Fin max_vid} {work : ι → List (Fin max_vid)}
    (h : w.state.changed = false → Quiet g c work w)
    (hstep : step g .backward w t = some w') (hquiet : w'.state.changed = false) :
    Quiet g c work w' := by
  cases event_of_step hstep with
  | @starts u todo hb =>
    refine (h hquiet).update (h hquiet).same trivial fun e he => .inl ?_
    rw [hb] at he
    simpa [left, pcLeft, startPc] using he
  | @goesOn todo pc hb =>
    have hsame : (stepPc w.state pc).1 = w.state :=
      (stepPc_same w.state pc).resolve_right (by simpa using hquiet)
    have hw : w.state.changed = false := by
      rw [← hsame]
      exact hquiet
    have hpc := (h hw).pcs t
    rw [hb] at hpc
    obtain ⟨hnext, hleft⟩ := loaded_stepPc hpc (h hw).same hquiet
    refine (h hw).update (by rw [hsame]; exact (h hw).same) hnext fun e he => ?_
    rw [hb] at he
    rcases List.mem_append.mp he with he | he
    · exact (hleft e he).imp_left fun he => List.mem_append_left _ he
    · exact .inl (List.mem_append_right _ he)

end Workers

/-! ### The rounds -/

theorem Sweep.sound {direction : Direction} (hsweep : Sweep g direction s s')
    (hsymm : g.Symmetric) (h : ∀ v, Label g v (s.components v)) (v : Fin max_vid) :
    Label g v (s'.components v) := by
  obtain ⟨threads, work, es, r, -, hrun, -, rfl⟩ := hsweep
  have hinit : Workers.Sound g (.init s work) := ⟨h, fun _ => trivial⟩
  have hsound : Workers.Sound g r :=
    invariant_of_step (fun _ _ _ hw _ hstep => hw.step hsymm hstep) hinit (along_true _ _ _) hrun
  exact hsound.labels v

/-- The labels agree along all edges. -/
def Agree (g : Adjacency max_vid) (c : Fin max_vid → Fin max_vid) : Prop :=
  ∀ u, ∀ v ∈ g.edges u, c u = c v

theorem Sweep.agree (hsweep : Sweep g .backward s s') (hquiet : s'.changed = false) :
    Agree g s'.components := by
  obtain ⟨threads, work, es, r, hall, hrun, hend, rfl⟩ := hsweep
  have hinit : Workers.Quiet g s.components work (.init s work) :=
    ⟨rfl, fun _ => trivial, fun t u hu v hv => .inl (by
      simp only [Workers.left, Workers.init, Workers.pcLeft, List.nil_append, List.mem_flatMap]
      exact ⟨u, hu, List.mem_map_of_mem hv⟩)⟩
  have hfinal : Workers.Quiet g s.components work r :=
    invariant_of_step (fun _ _ _ hw _ hstep => Workers.Quiet.step hw hstep) (fun _ => hinit)
      (along_true _ _ _) hrun hquiet
  intro u v hv
  obtain ⟨t, hu⟩ := hall u
  rw [hfinal.same]
  refine (hfinal.edges t u hu v hv).resolve_left ?_
  rw [hend t]
  simp [Workers.left, Workers.pcLeft]

theorem ParallelLoop.spec (hsymm : g.Symmetric) {rounds : Nat} {r : State max_vid}
    (h : ParallelLoop g rounds s r) (hlabels : ∀ v, Label g v (s.components v))
    (hagree : s.changed = false → Agree g s.components) :
    (∀ v, Label g v (r.components v)) ∧ (r.changed = false → Agree g r.components) := by
  induction h with
  | out s => exact ⟨hlabels, hagree⟩
  | stable _ => exact ⟨hlabels, hagree⟩
  | round _ hforward hbackward _ ih =>
    exact ih (hbackward.sound hsymm (hforward.sound hsymm hlabels)) hbackward.agree

/-- The steps that a thread has left in a scan. -/
def Workers.pcSteps : Pc max_vid → Nat
  | .idle => 0
  | .forward _ _ edges => 2 * edges.length + 1
  | .forwardStore _ _ _ edges => 2 * edges.length + 2
  | .backward _ edges => 4 * edges.length + 1
  | .loadedA _ _ _ edges => 4 * edges.length + 4
  | .loadedB _ _ _ _ edges => 4 * edges.length + 3
  | .backwardStore _ _ _ _ edges => 4 * edges.length + 2

/-- The steps that a thread has left at most. -/
def Workers.steps (g : Adjacency max_vid) (w : Worker max_vid) : Nat :=
  (w.todo.map fun u => 4 * (g.edges u).length + 2).sum + pcSteps w.pc

theorem pcSteps_stepPc {pc : Pc max_vid} (hne : pc ≠ .idle) :
    Workers.pcSteps (Workers.stepPc s pc).2 < Workers.pcSteps pc := by
  match pc, hne with
  | .forward _ _ [], _ => simp [Workers.stepPc, Workers.pcSteps]
  | .forward u my (v :: edges), _ =>
    simp only [Workers.stepPc]
    split <;> simp only [Workers.pcSteps, List.length_cons] <;> omega
  | .forwardStore .., _ => simp [Workers.stepPc, Workers.pcSteps]
  | .backward _ [], _ => simp [Workers.stepPc, Workers.pcSteps]
  | .backward _ (_ :: edges), _ => simp [Workers.stepPc, Workers.pcSteps]; omega
  | .loadedA .., _ => simp [Workers.stepPc, Workers.pcSteps]
  | .loadedB .., _ => simp [Workers.stepPc, Workers.pcSteps]
  | .backwardStore .., _ => simp [Workers.stepPc, Workers.pcSteps]

theorem pcSteps_startPc (direction : Direction) (u : Fin max_vid) :
    Workers.pcSteps (Workers.startPc g s u direction) < 4 * (g.edges u).length + 2 := by
  cases direction with
  | forward =>
    simp only [Workers.startPc]
    split <;> simp only [Workers.pcSteps] <;> omega
  | backward => simp [Workers.startPc, Workers.pcSteps]

/-- Every loop can be run to its end. -/
theorem exists_sweep (g : Adjacency max_vid) (direction : Direction) (s : State max_vid) :
    ∃ s', Sweep g direction s s' := by
  let work : Fin 1 → List (Fin max_vid) := fun _ => List.finRange max_vid
  have hstep (r : Workers (Fin 1) max_vid) (_ : True) (hend : ¬∀ t, r.worker t = ⟨[], .idle⟩) :
      ∃ t r', Workers.step g direction r t = some r' ∧ True ∧
        Workers.steps g (r'.worker 0) < Workers.steps g (r.worker 0) := by
    have hne : r.worker 0 ≠ ⟨[], .idle⟩ := fun h => hend fun t => by rwa [Subsingleton.elim t 0]
    refine ⟨0, ?_⟩
    rcases hw : r.worker 0 with ⟨todo, pc⟩
    rw [hw] at hne
    by_cases hpc : pc = .idle
    · subst hpc
      cases todo with
      | nil => exact absurd rfl hne
      | cons u todo =>
        refine ⟨_, by simp only [Workers.step, hw]; rfl, trivial, ?_⟩
        have hstart := pcSteps_startPc (g := g) (s := r.state) direction u
        have hidle : Workers.pcSteps (.idle : Pc max_vid) = 0 := rfl
        simp only [Workers.steps, update_self, List.map_cons, List.sum_cons, hidle]
        omega
    · refine ⟨⟨(Workers.stepPc r.state pc).1,
        update r.worker 0 ⟨todo, (Workers.stepPc r.state pc).2⟩⟩, ?_, trivial, ?_⟩
      · cases todo <;> cases pc <;> simp_all [Workers.step]
      · simpa only [Workers.steps, update_self] using Nat.add_lt_add_left (pcSteps_stepPc hpc) _
  obtain ⟨es, r, hrun, hend⟩ := exists_exec_end hstep (s := .init s work) trivial
  exact ⟨r.state, 1, work, es, r, fun u => ⟨0, List.mem_finRange u⟩, hrun, hend, rfl⟩

theorem exists_parallelLoop (g : Adjacency max_vid) (rounds : Nat) (s : State max_vid) :
    ∃ r, ParallelLoop g rounds s r := by
  induction rounds generalizing s with
  | zero => exact ⟨s, .out s⟩
  | succ rounds ih =>
    cases hchanged : s.changed with
    | false => exact ⟨s, .stable hchanged⟩
    | true =>
      obtain ⟨s₁, hforward⟩ := exists_sweep g .forward { s with changed := false }
      obtain ⟨s₂, hbackward⟩ := exists_sweep g .backward s₁
      obtain ⟨r, hr⟩ := ih s₂
      exact ⟨r, .round hchanged hforward hbackward hr⟩

/-- The flattening follows the labels to a root inside the component. -/
theorem exists_parent {c : Fin max_vid → Fin max_vid} (h : ∀ v, Label g v (c v)) :
    ∃ parent : Fin max_vid → Fin max_vid,
      (∀ v fuel, max_vid ≤ fuel → flattenFrom c fuel v = some (parent v)) ∧
      (∀ v, c (parent v) = parent v) ∧ ∀ v, g.Connected v (parent v) := by
  choose parent hparent hfixed hwalk using flattenFrom_spec (c := c) fun v => (h v).1
  refine ⟨parent, fun v fuel hfuel => hparent v fuel (v.isLt.trans_le hfuel), hfixed, fun v => ?_⟩
  have hpointers {r : Fin max_vid} (hr : Relation.ReflTransGen (fun u w => c u = w) v r) :
      g.Connected v r := by
    induction hr with
    | refl => exact .refl
    | tail _ hstep ih => exact ih.trans (hstep ▸ (h _).2)
  exact hpointers (hwalk v)

/-- Where the labels agree along all edges, the root is the smallest vertex of the component. -/
theorem isLeast_parent {c parent : Fin max_vid → Fin max_vid} (h : ∀ v, Label g v (c v))
    (hagree : Agree g c) (hfixed : ∀ v, c (parent v) = parent v)
    (hconn : ∀ v, g.Connected v (parent v)) (v : Fin max_vid) :
    IsLeast {u | g.Connected v u} (parent v) := by
  have hsame {u w : Fin max_vid} (huw : g.Connected u w) : c u = c w := by
    induction huw with
    | refl => rfl
    | tail _ hedge ih => exact ih.trans (hagree _ _ hedge)
  refine ⟨hconn v, fun u hu => ?_⟩
  calc parent v = c (parent v) := (hfixed v).symm
    _ = c u := (hsame (hconn v)).symm.trans (hsame hu)
    _ ≤ u := (h u).1

/-- compute_wcc on any number of threads with all their races: it returns, equal results mean
connected vertices, and if its last round has changed no label then every result is the smallest id
of its component. -/
theorem parallelLoop_spec (g : Adjacency max_vid) (hsymm : g.Symmetric) {s : State max_vid}
    (h : ParallelLoop g 100 ⟨id, true⟩ s) : ∃ parent : Fin max_vid → Fin max_vid,
    (∀ v fuel, max_vid ≤ fuel → flattenFrom s.components fuel v = some (parent v)) ∧
    (∀ u v, parent u = parent v → g.Connected u v) ∧
    (s.changed = false → ∀ v, IsLeast {u | g.Connected v u} (parent v)) := by
  obtain ⟨hlabels, hagree⟩ := h.spec hsymm (fun v => ⟨le_refl v, .refl⟩) nofun
  obtain ⟨parent, hparent, hfixed, hconn⟩ := exists_parent hlabels
  refine ⟨parent, hparent, fun u v heq => ?_, fun hquiet =>
    isLeast_parent hlabels (hagree hquiet) hfixed hconn⟩
  exact (hconn u).trans (heq ▸ Connected.symm hsymm (hconn v))

theorem sweep_of_exec {direction : Direction} {threads : Nat}
    (work : Fin threads → List (Fin max_vid)) (es : List (Fin threads)) (hall : ∀ u, ∃ t, u ∈ work t)
    (h : ∃ r, exec (Workers.step g direction) (.init s work) es = some r ∧
      (∀ t, r.worker t = ⟨[], .idle⟩) ∧ r.state.components = s'.components ∧
      r.state.changed = s'.changed) : Sweep g direction s s' := by
  obtain ⟨r, hrun, hend, hcomponents, hchanged⟩ := h
  exact ⟨threads, work, es, r, hall, hrun, hend, congrArg₂ State.mk hcomponents hchanged⟩

/-- Two threads on one edge; the first one lowers the label of vertex 1. -/
theorem parallelLoop_spec_edge :
    let g : Adjacency 2 := ⟨![[1], [0]], ![1, 1]⟩
    ∃ s, ParallelLoop g 100 ⟨id, true⟩ s ∧ s.changed = false ∧
      ∃ parent : Fin 2 → Fin 2,
        (∀ v fuel, 2 ≤ fuel → flattenFrom s.components fuel v = some (parent v)) ∧
        (∀ u v, parent u = parent v → g.Connected u v) ∧
        (s.changed = false → ∀ v, IsLeast {u | g.Connected v u} (parent v)) := by
  intro g
  have hforward : Sweep g .forward ⟨id, false⟩ ⟨![0, 0], true⟩ :=
    sweep_of_exec (fun t : Fin 2 => [t]) [0, 1, 0, 0, 0, 1, 1] (by decide)
      (exists_exec (by decide))
  have hbackward : Sweep g .backward ⟨![0, 0], true⟩ ⟨![0, 0], true⟩ :=
    sweep_of_exec (fun t : Fin 2 => [t]) [0, 1, 0, 1, 0, 1, 0, 1, 0, 1, 0, 1]
      (by decide) (exists_exec (by decide))
  have hforward' : Sweep g .forward ⟨![0, 0], false⟩ ⟨![0, 0], false⟩ :=
    sweep_of_exec (fun t : Fin 2 => [t]) [0, 1, 0, 1, 0, 1] (by decide)
      (exists_exec (by decide))
  have hbackward' : Sweep g .backward ⟨![0, 0], false⟩ ⟨![0, 0], false⟩ :=
    sweep_of_exec (fun t : Fin 2 => [t]) [0, 1, 0, 1, 0, 1, 0, 1, 0, 1, 0, 1]
      (by decide) (exists_exec (by decide))
  have hloop : ParallelLoop g 100 ⟨id, true⟩ ⟨![0, 0], false⟩ :=
    .round rfl hforward hbackward (.round rfl hforward' hbackward' (.stable rfl))
  exact ⟨_, hloop, rfl, parallelLoop_spec g (by decide) hloop⟩

end AVBGraph.WCC
