import AVBGraph.Framework.Run
import Mathlib.Tactic

namespace AVBGraph

open Framework

/-- Where a thread stands in `new_vertex`: each value names the statement behind it. -/
inductive NewVertex
  | idle
  | locked
  | built (eb : Nat)
  | counted (eb v : Nat)
  | named (eb v : Nat)
  | full (eb v : Nat)
  | growing (eb v : Nat)
  | grown (eb v : Nat)
  | sized (eb v : Nat)
  | installed (v : Nat)
  deriving DecidableEq

/-- The vertex table. `blocks` holds the eb pointers of the constructed entries, `src` the names
that setSrc gave; readers load node_num into `seen`. -/
structure GraphStore where
  blocks : List (Option Nat)
  hashMapSize : Nat
  nodeNum : Nat
  vertexCreationMutex : Option Nat
  growingVectorMutex : Option Nat
  allocated : Nat
  src : Nat → Option Nat
  pc : Nat → NewVertex
  returned : List Nat
  seen : Nat → Nat

namespace GraphStore

def init (blockCount : Nat) : GraphStore where
  blocks := List.replicate blockCount none
  hashMapSize := blockCount
  nodeNum := 0
  vertexCreationMutex := none
  growingVectorMutex := none
  allocated := 0
  src := fun _ => none
  pc := fun _ => .idle
  returned := []
  seen := fun _ => 0

/-- `grow_to_at_least`: new entries are null. -/
def growToAtLeast (blocks : List (Option Nat)) (size : Nat) : List (Option Nat) :=
  blocks ++ List.replicate (size - blocks.length) none

def setPc (s : GraphStore) (t : Nat) (p : NewVertex) : GraphStore :=
  { s with pc := Function.update s.pc t p }

/-- The next statement of `new_vertex` in thread t. -/
def newVertex (s : GraphStore) (t : Nat) : Option GraphStore :=
  match s.pc t with
  | .idle =>
    if s.vertexCreationMutex = none then
      some (setPc { s with vertexCreationMutex := some t } t .locked)
    else none
  | .locked => some (setPc { s with allocated := s.allocated + 1 } t (.built s.allocated))
  | .built eb => some (setPc { s with nodeNum := s.nodeNum + 1 } t (.counted eb s.nodeNum))
  | .counted eb v => some (setPc { s with src := Function.update s.src eb (some v) } t (.named eb v))
  | .named eb v => some (s.setPc t (if s.blocks.length ≤ v then .full eb v else .sized eb v))
  | .full eb v =>
    if s.growingVectorMutex = none then
      some (setPc { s with growingVectorMutex := some t } t (.growing eb v))
    else none
  | .growing eb v =>
    let blocks := if s.blocks.length ≤ v then
        growToAtLeast s.blocks (max (v + 1) (s.blocks.length * 2))
      else s.blocks
    some (setPc { s with blocks := blocks } t (.grown eb v))
  | .grown eb v => some (setPc { s with growingVectorMutex := none } t (.sized eb v))
  | .sized eb v => some (setPc { s with blocks := s.blocks.set v (some eb) } t (.installed v))
  | .installed v =>
    some (setPc { s with vertexCreationMutex := none, returned := v :: s.returned } t .idle)

inductive Event
  | create (t : Nat)
  | load (r : Nat)

def step (s : GraphStore) : Event → Option GraphStore
  | .create t => s.newVertex t
  | .load r => some { s with seen := Function.update s.seen r s.nodeNum }

/-- Every vertex below node_num can be indexed: in `blocks`, through its eb, and in `p_mHashMap`. -/
def Indexable (s : GraphStore) : Prop :=
  ∀ v < s.nodeNum, (∃ eb, s.blocks[v]? = some (some eb)) ∧ v < s.hashMapSize

end GraphStore

/-- The id that a thread has drawn without having installed its block. -/
def NewVertex.drawn : NewVertex → Option Nat
  | .counted _ v | .named _ v | .full _ v | .growing _ v | .grown _ v | .sized _ v => some v
  | _ => none

/-- The id of a call that has not returned. -/
def NewVertex.owned : NewVertex → Option Nat
  | .installed v => some v
  | p => p.drawn

/-- The id whose entry a thread may access. -/
def NewVertex.reachable : NewVertex → Option Nat
  | .grown _ v | .sized _ v => some v
  | _ => none

namespace GraphStore

/-- What the table looks like while the running call stands at p: its id is the last one and not
installed yet, all earlier ones are installed. -/
structure TableOk (s : GraphStore) (p : NewVertex) : Prop where
  installed : ∀ v < s.nodeNum, p.drawn ≠ some v → ∃ eb, s.blocks[v]? = some (some eb)
  missing : ∀ v, s.nodeNum ≤ v ∨ p.drawn = some v → ∀ eb, s.blocks[v]? ≠ some (some eb)
  room : ∀ v, p.reachable = some v → v < s.blocks.length
  owned : ∀ v, p.owned = some v → s.nodeNum = v + 1 ∧ v ∉ s.returned
  nodup : s.returned.Nodup
  returned_lt : ∀ v ∈ s.returned, v < s.nodeNum

/-- The statement at which the running call stands. -/
def current (s : GraphStore) : NewVertex := s.vertexCreationMutex.elim .idle s.pc

structure Inv (blockCount : Nat) (s : GraphStore) : Prop where
  idle : ∀ t, s.vertexCreationMutex ≠ some t → s.pc t = .idle
  hashMap : s.hashMapSize = blockCount
  table : s.TableOk s.current
  seen : ∀ r, s.seen r ≤ s.nodeNum

variable {s s' : GraphStore} {p q : NewVertex} {blockCount t : Nat}

theorem inv_init (blockCount : Nat) : Inv blockCount (init blockCount) where
  idle t _ := rfl
  hashMap := rfl
  table :=
    { installed := fun v hv => absurd hv (Nat.not_lt_zero v)
      missing := fun v _ eb => by simp [init, List.getElem?_replicate]
      room := fun v h => by cases h
      owned := fun v h => by cases h
      nodup := List.nodup_nil
      returned_lt := fun v hv => by cases hv }
  seen r := le_rfl

namespace TableOk

/-- Statements that leave the table alone. -/
theorem congr (h : s.TableOk p) (hb : s'.blocks = s.blocks) (hn : s'.nodeNum = s.nodeNum)
    (hr : s'.returned = s.returned) (hd : q.drawn = p.drawn) (ho : q.owned = p.owned)
    (hroom : ∀ v, q.reachable = some v → v < s.blocks.length) : s'.TableOk q := by
  constructor
  · rw [hb, hn, hd]
    exact h.installed
  · rw [hb, hn, hd]
    exact h.missing
  · rw [hb]
    exact hroom
  · rw [hn, hr, ho]
    exact h.owned
  · rw [hr]
    exact h.nodup
  · rw [hr, hn]
    exact h.returned_lt

/-- fetch_add draws the next id. -/
theorem count {eb : Nat} (h : s.TableOk (.built eb)) (hb : s'.blocks = s.blocks)
    (hn : s'.nodeNum = s.nodeNum + 1) (hr : s'.returned = s.returned) :
    s'.TableOk (.counted eb s.nodeNum) := by
  constructor
  · rw [hb, hn]
    intro v hv hne
    apply h.installed v
    · have : s.nodeNum ≠ v := fun heq => hne (by rw [heq]; rfl)
      omega
    · intro hdrawn
      cases hdrawn
  · rw [hb, hn]
    intro v hv
    apply h.missing v
    left
    rcases hv with hv | hv
    · omega
    · cases hv
      exact le_rfl
  · intro v hv
    cases hv
  · rw [hn, hr]
    intro v hv
    cases hv
    exact ⟨rfl, fun hmem => lt_irrefl _ (h.returned_lt _ hmem)⟩
  · rw [hr]
    exact h.nodup
  · rw [hr, hn]
    intro v hv
    have := h.returned_lt v hv
    omega

theorem getElem?_growToAtLeast {blocks : List (Option Nat)} {size v : Nat} (eb : Nat) :
    (growToAtLeast blocks size)[v]? = some (some eb) ↔ blocks[v]? = some (some eb) := by
  unfold growToAtLeast
  by_cases hv : v < blocks.length
  · rw [List.getElem?_append_left hv]
  · rw [List.getElem?_append_right (not_lt.mp hv), List.getElem?_eq_none (not_lt.mp hv),
      List.getElem?_replicate]
    split_ifs <;> simp

/-- Growing constructs null entries up to the new id. -/
theorem grow {eb v : Nat} (h : s.TableOk (.growing eb v)) {size : Nat}
    (hb : s'.blocks = growToAtLeast s.blocks size) (hsize : v < size)
    (hn : s'.nodeNum = s.nodeNum) (hr : s'.returned = s.returned) : s'.TableOk (.grown eb v) := by
  constructor
  · intro u hu hne
    rw [hn] at hu
    obtain ⟨e, he⟩ := h.installed u hu hne
    exact ⟨e, by rw [hb, getElem?_growToAtLeast, he]⟩
  · intro u hu e
    rw [hb, Ne, getElem?_growToAtLeast]
    rw [hn] at hu
    exact h.missing u hu e
  · intro u hu
    cases hu
    rw [hb, growToAtLeast, List.length_append, List.length_replicate]
    omega
  · rw [hn, hr]
    exact h.owned
  · rw [hr]
    exact h.nodup
  · rw [hr, hn]
    exact h.returned_lt

/-- Installing the block of the drawn id. -/
theorem install {eb v : Nat} (h : s.TableOk (.sized eb v)) (hb : s'.blocks = s.blocks.set v (some eb))
    (hn : s'.nodeNum = s.nodeNum) (hr : s'.returned = s.returned) : s'.TableOk (.installed v) := by
  obtain ⟨hlast, hnew⟩ := h.owned v rfl
  have hroom := h.room v rfl
  constructor
  · intro u hu _
    rw [hb]
    by_cases huv : v = u
    · subst huv
      exact ⟨eb, by rw [List.getElem?_set_self hroom]⟩
    · rw [List.getElem?_set_ne huv]
      rw [hn] at hu
      apply h.installed u hu
      intro heq
      cases heq
      exact huv rfl
  · intro u hu e
    have hle : s.nodeNum ≤ u := by
      rcases hu with hu | hu
      · omega
      · cases hu
    rw [hb, List.getElem?_set_ne (by omega)]
    exact h.missing u (Or.inl hle) e
  · intro u hu
    cases hu
  · intro u hu
    cases hu
    rw [hn, hr]
    exact ⟨hlast, hnew⟩
  · rw [hr]
    exact h.nodup
  · rw [hr, hn]
    exact h.returned_lt

theorem ret {v : Nat} (h : s.TableOk (.installed v)) (hb : s'.blocks = s.blocks)
    (hn : s'.nodeNum = s.nodeNum) (hr : s'.returned = v :: s.returned) : s'.TableOk .idle := by
  obtain ⟨hlast, hnew⟩ := h.owned v rfl
  constructor
  · rw [hb, hn]
    intro u hu _
    apply h.installed u hu
    intro heq
    cases heq
  · rw [hb, hn]
    intro u hu
    apply h.missing u
    rcases hu with hu | hu
    · exact Or.inl hu
    · cases hu
  · intro u hu
    cases hu
  · intro u hu
    cases hu
  · rw [hr]
    exact List.nodup_cons.mpr ⟨hnew, h.nodup⟩
  · rw [hr, hn]
    intro u hu
    rcases List.mem_cons.mp hu with rfl | hu
    · omega
    · exact h.returned_lt u hu

end TableOk

/-- What one statement of `new_vertex` does. -/
structure Moved (s s' : GraphStore) (t : Nat) : Prop where
  hashMap : s'.hashMapSize = s.hashMapSize
  seen : s'.seen = s.seen
  nodeNum : s.nodeNum ≤ s'.nodeNum
  others : ∀ u, u ≠ t → s'.pc u = s.pc u
  before : s.vertexCreationMutex = if s.pc t = .idle then none else some t
  after : s'.vertexCreationMutex = if s'.pc t = .idle then none else some t
  table : s.TableOk (s.pc t) → s'.TableOk (s'.pc t)

theorem moved_setPc {u : GraphStore} (hp : s.pc t = p) (hpc : u.pc = s.pc)
    (hm : u.hashMapSize = s.hashMapSize) (hseen : u.seen = s.seen) (hn : s.nodeNum ≤ u.nodeNum)
    (hbefore : s.vertexCreationMutex = if p = .idle then none else some t)
    (hafter : u.vertexCreationMutex = if q = .idle then none else some t)
    (htable : s.TableOk p → (u.setPc t q).TableOk q) : Moved s (u.setPc t q) t := by
  have hself : (u.setPc t q).pc t = q := Function.update_self _ _ _
  constructor
  · exact hm
  · exact hseen
  · exact hn
  · intro w hw
    show Function.update u.pc t q w = s.pc w
    rw [Function.update_of_ne hw, hpc]
  · rw [hp]
    exact hbefore
  · rw [hself]
    exact hafter
  · rw [hself, hp]
    exact htable

theorem newVertex_moved (hi : Inv blockCount s) (h : s.newVertex t = some s') : Moved s s' t := by
  have hlock : s.pc t ≠ .idle → s.vertexCreationMutex = some t := by
    intro hne
    by_contra hno
    exact hne (hi.idle t hno)
  cases hp : s.pc t with
  | idle =>
    simp only [newVertex, hp] at h
    split_ifs at h with hfree
    rw [← Option.some.inj h]
    refine moved_setPc hp rfl rfl rfl le_rfl hfree rfl fun htable => ?_
    exact htable.congr rfl rfl rfl rfl rfl fun v hv => by cases hv
  | locked =>
    have hheld := hlock (by simp [hp])
    simp only [newVertex, hp] at h
    rw [← Option.some.inj h]
    refine moved_setPc hp rfl rfl rfl le_rfl hheld hheld fun htable => ?_
    exact htable.congr rfl rfl rfl rfl rfl fun v hv => by cases hv
  | built eb =>
    have hheld := hlock (by simp [hp])
    simp only [newVertex, hp] at h
    rw [← Option.some.inj h]
    refine moved_setPc hp rfl rfl rfl (Nat.le_succ _) hheld hheld fun htable => ?_
    exact htable.count rfl rfl rfl
  | counted eb v =>
    have hheld := hlock (by simp [hp])
    simp only [newVertex, hp] at h
    rw [← Option.some.inj h]
    refine moved_setPc hp rfl rfl rfl le_rfl hheld hheld fun htable => ?_
    exact htable.congr rfl rfl rfl rfl rfl fun v hv => by cases hv
  | named eb v =>
    have hheld := hlock (by simp [hp])
    simp only [newVertex, hp] at h
    rw [← Option.some.inj h]
    split_ifs with hfull
    · refine moved_setPc hp rfl rfl rfl le_rfl hheld hheld fun htable => ?_
      exact htable.congr rfl rfl rfl rfl rfl fun v hv => by cases hv
    · refine moved_setPc hp rfl rfl rfl le_rfl hheld hheld fun htable => ?_
      refine htable.congr rfl rfl rfl rfl rfl fun u hu => ?_
      cases hu
      exact not_le.mp hfull
  | full eb v =>
    have hheld := hlock (by simp [hp])
    simp only [newVertex, hp] at h
    split_ifs at h with hfree
    rw [← Option.some.inj h]
    refine moved_setPc hp rfl rfl rfl le_rfl hheld hheld fun htable => ?_
    exact htable.congr rfl rfl rfl rfl rfl fun v hv => by cases hv
  | growing eb v =>
    have hheld := hlock (by simp [hp])
    simp only [newVertex, hp] at h
    rw [← Option.some.inj h]
    refine moved_setPc hp rfl rfl rfl le_rfl hheld hheld fun htable => ?_
    split_ifs with hfull
    · have hsize : v < max (v + 1) (s.blocks.length * 2) := by omega
      exact htable.grow rfl hsize rfl rfl
    · refine htable.congr rfl rfl rfl rfl rfl fun u hu => ?_
      cases hu
      exact not_le.mp hfull
  | grown eb v =>
    have hheld := hlock (by simp [hp])
    simp only [newVertex, hp] at h
    rw [← Option.some.inj h]
    refine moved_setPc hp rfl rfl rfl le_rfl hheld hheld fun htable => ?_
    exact htable.congr rfl rfl rfl rfl rfl htable.room
  | sized eb v =>
    have hheld := hlock (by simp [hp])
    simp only [newVertex, hp] at h
    rw [← Option.some.inj h]
    refine moved_setPc hp rfl rfl rfl le_rfl hheld hheld fun htable => ?_
    exact htable.install rfl rfl rfl
  | installed v =>
    have hheld := hlock (by simp [hp])
    simp only [newVertex, hp] at h
    rw [← Option.some.inj h]
    refine moved_setPc hp rfl rfl rfl le_rfl hheld rfl fun htable => ?_
    exact htable.ret rfl rfl rfl

theorem inv_step {e : Event} (hi : Inv blockCount s) (h : s.step e = some s') :
    Inv blockCount s' := by
  cases e with
  | load r =>
    rw [← Option.some.inj h]
    constructor
    · exact hi.idle
    · exact hi.hashMap
    · exact hi.table.congr rfl rfl rfl rfl rfl hi.table.room
    · intro r'
      show Function.update s.seen r s.nodeNum r' ≤ s.nodeNum
      by_cases hr : r' = r
      · rw [hr, Function.update_self]
      · rw [Function.update_of_ne hr]
        exact hi.seen r'
  | create t =>
    have hm := newVertex_moved hi h
    have hbefore : s.current = s.pc t := by
      rw [current, hm.before]
      split_ifs with hidle
      · exact hidle.symm
      · rfl
    have hafter : s'.current = s'.pc t := by
      rw [current, hm.after]
      split_ifs with hidle
      · exact hidle.symm
      · rfl
    constructor
    · intro u hu
      by_cases hut : u = t
      · subst hut
        by_contra hidle
        rw [hm.after, if_neg hidle] at hu
        exact hu rfl
      · rw [hm.others u hut]
        apply hi.idle u
        rw [hm.before]
        split_ifs
        · exact nofun
        · intro heq
          exact hut (Option.some.inj heq).symm
    · rw [hm.hashMap]
      exact hi.hashMap
    · rw [hafter]
      apply hm.table
      rw [← hbefore]
      exact hi.table
    · intro r
      rw [hm.seen]
      exact (hi.seen r).trans hm.nodeNum

/-- No call stands between its fetch_add and the assignment of its block, and the vertices fit
into the initial hash map. -/
def Settled (blockCount : Nat) (s : GraphStore) : Prop :=
  (∀ t, (s.pc t).drawn = none) ∧ s.nodeNum ≤ blockCount

theorem Inv.indexable_iff (hi : Inv blockCount s) : s.Indexable ↔ s.Settled blockCount := by
  constructor
  · intro hall
    have hnone : s.current.drawn = none := by
      cases hd : s.current.drawn with
      | none => rfl
      | some v =>
        have howned : s.current.owned = some v := by
          cases hc : s.current <;> simp_all [NewVertex.owned, NewVertex.drawn]
        obtain ⟨hlast, -⟩ := hi.table.owned v howned
        obtain ⟨⟨eb, heb⟩, -⟩ := hall v (by omega)
        exact absurd heb (hi.table.missing v (Or.inr hd) eb)
    constructor
    · intro t
      by_cases ht : s.vertexCreationMutex = some t
      · have hcur : s.current = s.pc t := by
          rw [current, ht]
          rfl
        rw [← hcur]
        exact hnone
      · rw [hi.idle t ht]
        rfl
    · rw [← hi.hashMap]
      by_contra hlt
      have := (hall (s.nodeNum - 1) (by omega)).2
      omega
  · rintro ⟨hnone, hle⟩ v hv
    constructor
    · apply hi.table.installed v hv
      unfold current
      cases s.vertexCreationMutex with
      | none => exact nofun
      | some t =>
        show (s.pc t).drawn ≠ some v
        rw [hnone t]
        exact nofun
    · rw [hi.hashMap]
      omega

variable {es : List Event}

/-- In every state of every run the vertex table can be indexed below node_num exactly when no
call has drawn an id without its block and the initial size covers all ids. No id is given out
twice, and readers stay below node_num. -/
theorem indexable_iff_settled (hrun : exec step (init blockCount) es = some s) :
    (s.Indexable ↔ s.Settled blockCount) ∧ s.returned.Nodup ∧ ∀ r, s.seen r ≤ s.nodeNum := by
  have hi : Inv blockCount s := invariant_of_step (fun _ _ _ hi _ h => inv_step hi h)
    (inv_init blockCount) (along_true step _ _) hrun
  exact ⟨hi.indexable_iff, hi.table.nodup, hi.seen⟩

private def createOne : List Event := List.replicate 7 (.create 0)

/-- One complete call in a store of initial size 1. -/
theorem indexable_iff_settled_createOne : ∃ s, exec step (init 1) createOne = some s ∧
    s.returned.Nodup := by
  obtain ⟨s, hrun, -⟩ : ∃ s, exec step (init 1) createOne = some s ∧ s.nodeNum = 1 := by
    refine exists_exec ?_
    decide
  exact ⟨s, hrun, (indexable_iff_settled hrun).2.1⟩

/-- After the fetch_add of the first call vertex 0 has no block yet. -/
theorem drawn_not_indexable : ¬∀ (blockCount : Nat) (es : List Event) (s : GraphStore),
    exec step (init blockCount) es = some s → s.Indexable ∧ s.returned.Nodup := by
  intro hall
  obtain ⟨s, hrun, hnum, hblock⟩ : ∃ s, exec step (init 256) (List.replicate 3 (.create 0)) = some s ∧
      s.nodeNum = 1 ∧ s.blocks[0]? = some none := by
    refine exists_exec ?_
    decide
  obtain ⟨⟨eb, heb⟩, -⟩ := (hall 256 _ s hrun).1 0 (by omega)
  rw [hblock] at heb
  cases heb

end GraphStore

end AVBGraph
