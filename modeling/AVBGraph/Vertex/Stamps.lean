import AVBGraph.Framework.Run
import AVBGraph.Vertex.Refine

namespace AVBGraph

open Framework Function

namespace VertexEdges

variable {b : Build} {S : StdSort} {env : Env} {s t : VertexEdges} {w : Write} {r : WriteResult}

/-- The epoch that the TmpVersionBlock of a slot belongs to. -/
def stampAt (s : VertexEdges) (k : Nat) : Nat := (s.tmpVb k).timestamp

theorem stampAt_of_tmpVb (h : t.tmpVb = s.tmpVb) : t.stampAt = s.stampAt := by
  funext k
  simp only [stampAt, h]

/-- A TmpVersionBlock that changes its entries only. -/
theorem stampAt_update {slot : Nat} {vb : TmpVersionBlock} (ht : t.tmpVb = update s.tmpVb slot vb)
    (hvb : vb.timestamp = (s.tmpVb slot).timestamp) : t.stampAt = s.stampAt := by
  funext k
  simp only [stampAt, ht]
  by_cases hk : k = slot
  · subst hk
    rw [update_self, hvb]
  · rw [update_of_ne hk]

theorem stampAt_insertVersion (edge block index link offset lastEpoch oldIntra newIntra : Nat) :
    (s.insertVersion w edge block index link offset lastEpoch oldIntra newIntra).2.stampAt =
      s.stampAt :=
  stampAt_update rfl rfl

theorem stampAt_linkNext (pending : Bool) (lastEpoch lastIndex epoch idx : Nat) :
    (s.linkNext pending lastEpoch lastIndex epoch idx).stampAt = s.stampAt := by
  unfold linkNext
  split_ifs
  · exact stampAt_update rfl rfl
  · rfl

theorem tmpVb_setItemE (l : Loc) (x : EdgeWithIndex) : (s.setItemE l x).tmpVb = s.tmpVb := by
  cases l <;> rfl

theorem stampAt_setItem (l : Loc) (x : Item) : (s.setItem l x).stampAt = s.stampAt :=
  stampAt_of_tmpVb tmpVb_setItem

theorem stampAt_addVersion (l : Loc) (offset : Nat) (delete : Bool)
    (lastEpoch lastIndex oldIntra : Nat) :
    (s.addVersion l offset delete lastEpoch lastIndex oldIntra w).stampAt = s.stampAt := by
  unfold addVersion
  simp only [stampAt_setItem, stampAt_linkNext, stampAt_insertVersion]

theorem stampAt_insertFine (l : Loc) (offset : Nat) (wasDeleted : Bool) :
    (s.insertFine l offset wasDeleted w).2.stampAt = s.stampAt := by
  unfold insertFine
  simp only
  split_ifs <;> simp only [stampAt_addVersion]

theorem stampAt_deleteFine (l : Loc) (offset : Nat) :
    (s.deleteFine l offset w).2.stampAt = s.stampAt := by
  unfold deleteFine
  simp only
  split_ifs <;> simp only [stampAt_addVersion]

theorem timestamp_changeVersion {vb vb' : TmpVersionBlock} {weight index mt offset : Nat}
    {txn : Transaction} (h : vb.changeVersion weight index txn mt offset = some vb') :
    vb'.timestamp = vb.timestamp := by
  unfold TmpVersionBlock.changeVersion at h
  split_ifs at h
  obtain rfl := Option.some.inj h
  rfl

theorem stampAt_writeCoarse (l : Loc) (offset : Nat) (delete : Bool) :
    (s.writeCoarse l offset delete w).2.stampAt = s.stampAt := by
  obtain ⟨-, hr⟩ | ⟨-, -, -, hr⟩ | ⟨-, -, -, vb, hvb, hr⟩ | ⟨-, -, block, index, link, hr⟩ :=
    s.writeCoarse_tail l offset delete w
  · rw [← hr]
  · rw [← hr]
  · rw [← hr, stampAt_of_tmpVb (tmpVb_setItemE ..)]
    exact stampAt_update rfl (timestamp_changeVersion hvb)
  · rw [← hr, stampAt_setItem, stampAt_linkNext]
    exact stampAt_insertVersion ..

theorem stampAt_openTvb (epoch : Nat) :
    (s.openTvb b epoch).1 = decide (s.stampAt (epoch % 16) ≠ epoch) ∧
      (s.openTvb b epoch).2.stampAt = update s.stampAt (epoch % 16) epoch := by
  unfold openTvb
  split_ifs with h
  · have h : s.stampAt (epoch % 16) = epoch := h
    exact ⟨by simp [h], by rw [update_eq_self_iff.mpr h.symm]⟩
  all_goals
    refine ⟨(decide_eq_true h).symm, ?_⟩
    funext k
    by_cases hk : k = epoch % 16
    · subst hk
      simp [stampAt]
    · simp [stampAt, hk]

/-- A write that reaches its TmpVersionBlock registers it if it belonged to another epoch. -/
structure Registers (s : VertexEdges) (w : Write) (r : WriteResult) : Prop where
  registered : r.registered = decide (s.stampAt (w.epoch % 16) ≠ w.epoch)
  stamp : r.state.stampAt = update s.stampAt (w.epoch % 16) w.epoch

theorem insert_registers (h : s.insertEdgeBlock b S env w = some r) : Registers s w r := by
  obtain ⟨f, hf, rfl⟩ := Option.map_eq_some_iff.mp h
  have hfs : f.state.stampAt = s.stampAt := by
    have hprep : (s.prepare S env).tmpVb = s.tmpVb := tmpVb_prepare
    rw [← stampAt_of_tmpVb hprep]
    unfold findOrAppend at hf
    split_ifs at hf
    · obtain ⟨p, -, rfl⟩ := Option.map_eq_some_iff.mp hf
      exact stampAt_of_tmpVb (tmpVb_setItemE ..)
    · obtain rfl := Option.some.inj hf
      rfl
  obtain ⟨hreg, hstamp⟩ := stampAt_openTvb (b := b) (s := f.state) w.epoch
  rw [hfs] at hreg hstamp
  refine ⟨hreg, ?_⟩
  cases b with
  | fineGrain => exact (stampAt_insertFine _ _ _).trans hstamp
  | coarse => exact (stampAt_writeCoarse _ _ _).trans hstamp

/-- A deletion of an unknown destination does not reach its TmpVersionBlock. -/
theorem delete_registers (h : s.deleteEdgeBlock b S env w = some r) :
    Registers s w r ∨ (r.registered = false ∧ r.accepted = false ∧ r.state.stampAt = s.stampAt) := by
  have hprep : (s.prepare S env).stampAt = s.stampAt := stampAt_of_tmpVb tmpVb_prepare
  unfold deleteEdgeBlock at h
  simp only at h
  split_ifs at h
  · left
    obtain ⟨p, -, rfl⟩ := Option.map_eq_some_iff.mp h
    obtain ⟨hreg, hstamp⟩ := stampAt_openTvb (b := b) (s := s.prepare S env) w.epoch
    rw [hprep] at hreg hstamp
    refine ⟨hreg, ?_⟩
    cases b with
    | fineGrain => exact (stampAt_deleteFine _ _).trans hstamp
    | coarse => exact (stampAt_writeCoarse _ _ _).trans hstamp
  · right
    obtain rfl := Option.some.inj h
    exact ⟨rfl, rfl, hprep⟩

section Transform

variable {slot vb : Nat}

theorem stampAt_changeLast (link : VersionLink) : (s.changeLast link vb).stampAt = s.stampAt :=
  stampAt_update rfl rfl

/-- What changeLast keeps, and setItem with the same edge word, the loops of Transform keep. -/
theorem publishAll_preserves {I : VertexEdges → Prop}
    (hset : ∀ (u : VertexEdges) (l : Loc) (x : Item), x.1.e = (u.itemE l).e → I u → I (u.setItem l x))
    (hlast : ∀ (u : VertexEdges) (link : VersionLink) (addr : Nat), I u → I (u.changeLast link addr))
    {p : Progress} (h : publishAll b S slot vb s = some p) (hs : I s) : I p.state := by
  have hafter : ∀ (u : VertexEdges) (link : VersionLink) (addr : Nat) (l : Loc) (x : Item),
      x.1.e = (u.itemE l).e → I u → I ((u.changeLast link addr).setItem l x) := by
    intro u link addr l x hx hu
    apply hset _ _ _ _ (hlast _ _ _ hu)
    rw [hx]
    cases l <;> rfl
  have hfresh : ∀ (epoch : Nat) (q : Progress) (i : Nat) (q' : Progress),
      publishFresh b slot epoch q i = some q' → I q.state → I q'.state := by
    intro epoch q i q' hq hi
    obtain ⟨l, -, rfl⟩ := Option.map_eq_some_iff.mp hq
    dsimp only
    split_ifs
    all_goals first | exact hafter _ _ _ _ _ rfl hi | exact hset _ _ _ rfl hi
  have hfine : ∀ (epoch : Nat) (q : Progress) (i : Nat) (q' : Progress),
      publishFine slot epoch q i = some q' → I q.state → I q'.state := by
    intro epoch q i q' hq hi
    obtain ⟨l, -, rfl⟩ := Option.map_eq_some_iff.mp hq
    exact hset _ _ _ rfl hi
  have hcoarse : ∀ (third : Bool) (epoch : Nat) (q : Progress) (i : Nat) (q' : Progress),
      publishCoarse third slot epoch vb q i = some q' → I q.state → I q'.state := by
    intro third epoch q i q' hq hi
    obtain ⟨l, -, rfl⟩ := Option.map_eq_some_iff.mp hq
    dsimp only
    split_ifs
    · exact hafter _ _ _ _ _ rfl hi
    · exact hset _ _ _ rfl hi
  have hloop : ∀ {f : Progress → Nat → Option Progress} {is : List Nat} {q q' : Progress},
      (∀ q i q', f q i = some q' → I q.state → I q'.state) →
      is.foldlM f q = some q' → I q.state → I q'.state := by
    intro f is q q' hf hq hi
    exact foldlM_induction (Q := fun u => I u.state) (fun u i _ u' hu hu' => hf u i u' hu' hu) hi hq
  unfold publishAll at h
  simp only [Option.bind_eq_bind, Option.bind_eq_some_iff] at h
  obtain ⟨p₁, h₁, p₂, h₂, h⟩ := h
  have hfirst := hloop (hfresh _) h₁ hs
  cases b with
  | fineGrain => exact hloop (hfine _) h (hloop (hfine _) h₂ hfirst)
  | coarse => exact hloop (hcoarse true _) h (hloop (hcoarse false _) h₂ hfirst)

/-- What neither setItem nor changeLast changes, the loops of Transform leave alone. -/
theorem publishAll_const {α : Type*} {F : VertexEdges → α}
    (hset : ∀ (u : VertexEdges) (l : Loc) (x : Item), F (u.setItem l x) = F u)
    (hlast : ∀ (u : VertexEdges) (link : VersionLink) (addr : Nat),
      F (u.changeLast link addr) = F u)
    {p : Progress} (h : publishAll b S slot vb s = some p) : F p.state = F s :=
  publishAll_preserves (I := fun u => F u = F s) (fun u l x _ hu => (hset u l x).trans hu)
    (fun u link addr hu => (hlast u link addr).trans hu) h rfl

theorem stampAt_publishAll {p : Progress} (h : publishAll b S slot vb s = some p) :
    p.state.stampAt = s.stampAt :=
  publishAll_const (fun _ => stampAt_setItem) (fun _ link _ => stampAt_changeLast link) h

/-- Transform empties its TmpVersionBlock and leaves it to its epoch. -/
theorem stampAt_transform {n : Nat} (h : transform b S slot vb s = some (n, t)) :
    t.stampAt = s.stampAt := by
  unfold transform at h
  split_ifs at h
  · obtain ⟨-, rfl⟩ := Prod.mk.inj (Option.some.inj h)
    rfl
  · obtain ⟨p, hp, h⟩ := Option.map_eq_some_iff.mp h
    obtain ⟨-, rfl⟩ := Prod.mk.inj h
    rw [← stampAt_publishAll hp]
    exact stampAt_update rfl rfl

end Transform

end VertexEdges

end AVBGraph
