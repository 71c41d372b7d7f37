import AVBGraph.Vertex.History

namespace AVBGraph

open Framework

/-- A change without its links to other entries and blocks. -/
def Change.erase (c : Change) : Change := { c with next := 0, index := 0 }

@[simp] theorem Change.key_erase (c : Change) : c.erase.key = c.key := rfl

theorem Change.erase_eq_erase {c c' : Change} : c.erase = c'.erase ↔
    c.edge = c'.edge ∧ c.weight = c'.weight ∧ c.old = c'.old ∧ c.intra = c'.intra := by
  simp [Change.erase]

theorem VertexEdges.changes_eq_nil {s : VertexEdges} {k : Nat} :
    s.view.changes k = [] ↔ (s.tmpVb k).entries = [] := List.map_eq_nil_iff

namespace View

variable {v : View} {w : Write}

section Open

theorem head_openTvb (epoch : Nat) : (v.openTvb epoch).head = v.head := by
  unfold openTvb; split_ifs <;> rfl

theorem stamp_openTvb (epoch k : Nat) :
    (v.openTvb epoch).stamp k = if k = epoch % 16 then epoch else v.stamp k := by
  unfold openTvb
  by_cases hk : k = epoch % 16
  · subst hk
    by_cases h : v.stamp (epoch % 16) = epoch
    · simp [h]
    · simp [h]
  · by_cases h : v.stamp (epoch % 16) = epoch
    · simp [h, hk]
    · simp [h, hk]

theorem changes_openTvb (epoch k : Nat) : (v.openTvb epoch).changes k =
    if k = epoch % 16 ∧ v.stamp k ≠ epoch then [] else v.changes k := by
  unfold openTvb
  by_cases hk : k = epoch % 16
  · subst hk
    by_cases h : v.stamp (epoch % 16) = epoch
    · simp [h]
    · simp [h]
  · by_cases h : v.stamp (epoch % 16) = epoch
    · simp [h, hk]
    · simp [h, hk]

theorem vbs_openTvb (epoch : Nat) : (v.openTvb epoch).vbm.vbs = v.vbm.vbs := by
  unfold openTvb; split_ifs <;> rfl

theorem endEpoch_openTvb (epoch : Nat) : (v.openTvb epoch).vbm.endEpoch = v.vbm.endEpoch := by
  unfold openTvb; split_ifs <;> rfl

variable {epoch : Nat}

/-- An entry that is left when the epoch opens its TmpVersionBlock was there under the same stamp. -/
theorem mem_changes_openTvb {k : Nat} {c : Change} (hc : c ∈ (v.openTvb epoch).changes k) :
    c ∈ v.changes k ∧ (v.openTvb epoch).stamp k = v.stamp k := by
  rw [changes_openTvb] at hc
  rw [stamp_openTvb]
  split_ifs at hc with hk
  · simp at hc
  · refine ⟨hc, ?_⟩
    split_ifs with hk'
    · exact (not_not.mp fun hne => hk ⟨hk', hne⟩).symm
    · rfl

/-- A free slot loses nothing when the epoch opens its TmpVersionBlock. -/
theorem changes_openTvb_of_free
    (hfree : v.changes (epoch % 16) = [] ∨ v.stamp (epoch % 16) = epoch) :
    (v.openTvb epoch).changes = v.changes := by
  funext k
  rw [changes_openTvb]
  split_ifs with hk
  · obtain ⟨rfl, hne⟩ := hk
    exact (hfree.resolve_right hne).symm
  · rfl

theorem stamp_openTvb_of_free
    (hfree : v.changes (epoch % 16) = [] ∨ v.stamp (epoch % 16) = epoch) {k : Nat}
    (hk : v.changes k ≠ []) : (v.openTvb epoch).stamp k = v.stamp k := by
  rw [stamp_openTvb]
  split_ifs with hs
  · subst hs
    exact (hfree.resolve_left hk).symm
  · rfl

end Open

section Add

theorem linkNext_erase (pending : Bool) (lastEpoch lastIndex epoch idx k : Nat) :
    ((v.linkNext pending lastEpoch lastIndex epoch idx).changes k).map Change.erase =
      (v.changes k).map Change.erase := by
  unfold linkNext
  split_ifs with h
  · by_cases hk : k = lastEpoch % 16
    · subst hk
      simp only [Function.update_self]
      have hid : ∀ c : Change, ({ c with next := c.next ||| epoch, index := idx } : Change).erase =
          id c.erase := fun _ => rfl
      rw [map_modify hid, List.modify_id]
    · simp [hk]
  · rfl

variable {delete pending : Bool} {last : Composite} {lastIndex weight : Nat}

theorem head_addVersion :
    (v.addVersion delete pending last lastIndex weight w).head = Function.update v.head w.dst
      (some ⟨delete, w.time, true, weight, if delete then 0 else (v.changes (w.epoch % 16)).length⟩) := by
  unfold addVersion linkNext push
  simp only
  split_ifs <;> rfl

theorem stamp_addVersion : (v.addVersion delete pending last lastIndex weight w).stamp = v.stamp := by
  unfold addVersion linkNext push
  simp only
  split_ifs <;> rfl

theorem vbm_addVersion : (v.addVersion delete pending last lastIndex weight w).vbm = v.vbm := by
  unfold addVersion linkNext push
  simp only
  split_ifs <;> rfl

/-- The entry that a write appends, without its links. -/
def newChange (delete : Bool) (last : Composite) (w : Write) : Change :=
  ⟨if delete then setDelete w.dst else w.dst, w.weight, last, w.txn.intra, 0, 0⟩

theorem key_newChange : (newChange delete last w).key = w.dst := by
  unfold newChange Change.key
  cases delete
  · exact clearDelete_of_lt w.dst_lt
  · exact (clearDelete_setDelete _).trans (clearDelete_of_lt w.dst_lt)

theorem addVersion_erase (k : Nat) :
    ((v.addVersion delete pending last lastIndex weight w).changes k).map Change.erase =
      (v.changes k).map Change.erase ++ if k = w.epoch % 16 then [newChange delete last w] else [] := by
  unfold addVersion
  simp only [linkNext_erase, push]
  by_cases hk : k = w.epoch % 16
  · subst hk
    simp [newChange, Change.erase]
  · simp [hk]

theorem mem_addVersion {k : Nat} {c : Change}
    (hc : c ∈ (v.addVersion delete pending last lastIndex weight w).changes k) :
    (∃ c' ∈ v.changes k, c'.erase = c.erase) ∨
      (k = w.epoch % 16 ∧ newChange delete last w = c.erase) := by
  have hmem := List.mem_map_of_mem (f := Change.erase) hc
  rw [addVersion_erase, List.mem_append] at hmem
  rcases hmem with hmem | hmem
  · exact Or.inl (List.mem_map.mp hmem)
  · split_ifs at hmem with hk
    · exact Or.inr ⟨hk, (List.mem_singleton.mp hmem).symm⟩
    · simp at hmem

/-- An entry keeps its index. -/
theorem getElem?_addVersion {k i : Nat} {c : Change} (hc : (v.changes k)[i]? = some c) :
    ∃ c', ((v.addVersion delete pending last lastIndex weight w).changes k)[i]? = some c' ∧
      c'.erase = c.erase := by
  refine getElem?_of_map_eq (addVersion_erase k) ?_
  have hlt : i < ((v.changes k).map Change.erase).length := by
    rw [List.length_map]
    exact (List.getElem?_eq_some_iff.mp hc).1
  rw [List.getElem?_append_left hlt, List.getElem?_map, hc]
  rfl

/-- The new entry is the last of its slot. -/
theorem getElem?_addVersion_new :
    ∃ c, ((v.addVersion delete pending last lastIndex weight w).changes (w.epoch % 16))[
      (v.changes (w.epoch % 16)).length]? = some c ∧ c.erase = newChange delete last w := by
  refine getElem?_of_map_eq (addVersion_erase (w.epoch % 16)) ?_
  rw [if_pos rfl, List.getElem?_append_right (by rw [List.length_map])]
  simp

theorem changes_push (slot : Nat) (c : Change) :
    (v.push slot c).changes = Function.update v.changes slot (v.changes slot ++ [c]) := rfl

/-- A first insertion with a link had it before, or is the pending predecessor of the write. -/
theorem next_addVersion {k : Nat} {c : Change}
    (hc : c ∈ (v.addVersion delete pending last lastIndex weight w).changes k)
    (hz : c.old.e = 0) (hn : c.next ≠ 0) :
    (∃ c' ∈ v.changes k, c'.erase = c.erase ∧ c'.next ≠ 0) ∨
      pending = true ∧ last.e ≠ 0 ∧ k = last.e % 16 ∧
        ∀ c', (v.changes k)[lastIndex]? = some c' → c'.erase = c.erase := by
  set new : Change := ⟨if delete then setDelete w.dst else w.dst, w.weight, last, w.txn.intra,
    last.e, lastIndex⟩ with hnew
  have hpush : ∀ c ∈ (v.push (w.epoch % 16) new).changes k, c.old.e = 0 → c.next ≠ 0 →
      c ∈ v.changes k := by
    intro c hc hz hn
    rw [changes_push] at hc
    by_cases hk : k = w.epoch % 16
    · subst hk
      rw [Function.update_self] at hc
      rcases List.mem_append.mp hc with hc | hc
      · exact hc
      · obtain rfl := List.mem_singleton.mp hc
        exact absurd hz hn
    · rwa [Function.update_of_ne hk] at hc
  change c ∈ ((v.push (w.epoch % 16) new).linkNext pending last.e lastIndex w.epoch _).changes k at hc
  unfold linkNext at hc
  split_ifs at hc with hlink
  · dsimp only at hc
    by_cases hk : k = last.e % 16
    · subst hk
      rw [Function.update_self] at hc
      obtain ⟨j, hj⟩ := List.getElem?_of_mem hc
      rw [List.getElem?_modify] at hj
      obtain ⟨c₀, hc₀, rfl⟩ := Option.map_eq_some_iff.mp hj
      by_cases hji : lastIndex = j
      · -- the entry that the write links to
        rw [if_pos hji]
        refine Or.inr ⟨hlink.1, hlink.2, rfl, fun c' hc' => ?_⟩
        have hlt := (List.getElem?_eq_some_iff.mp hc').1
        have hsame : ((v.push (w.epoch % 16) new).changes (last.e % 16))[lastIndex]? = some c' := by
          rw [changes_push]
          by_cases hs : last.e % 16 = w.epoch % 16
          · rw [hs] at hc' hlt ⊢
            rw [Function.update_self, List.getElem?_append_left hlt, hc']
          · rw [Function.update_of_ne hs, hc']
        rw [hji, hc₀] at hsame
        rw [Option.some.inj hsame]
        rfl
      · rw [if_neg hji] at hz hn ⊢
        exact Or.inl ⟨c₀, hpush c₀ (List.mem_of_getElem? hc₀) hz hn, rfl, hn⟩
    · rw [Function.update_of_ne hk] at hc
      exact Or.inl ⟨c, hpush c hc hz hn, rfl, hn⟩
  · exact Or.inl ⟨c, hpush c hc hz hn, rfl, hn⟩

end Add

section Transform

variable {S : StdSort} {slot : Nat}

theorem transform_of_nil (hnil : v.changes slot = []) (vb : Nat) : v.transform S slot vb = v := by
  unfold View.transform
  rw [if_pos hnil]

theorem head_transform (hne : v.changes slot ≠ []) (vb : Nat) :
    (v.transform S slot vb).head = (publishAll S slot v).head := by
  unfold View.transform
  rw [if_neg hne]

theorem stamp_transform (vb : Nat) : (v.transform S slot vb).stamp = v.stamp := by
  unfold View.transform
  split_ifs <;> rfl

theorem changes_transform (vb k : Nat) : (v.transform S slot vb).changes k =
    if k = slot then [] else v.changes k := by
  unfold View.transform
  split_ifs with hnil hk hk
  · rw [hk, hnil]
  · rfl
  · rw [hk]
    exact Function.update_self ..
  · exact Function.update_of_ne hk ..

end Transform

/-- An insertion over a live version. -/
theorem insertFine_of_live (hlive : ∀ h, v.head w.dst = some h → h.deleted = false) (unset : Nat) :
    v.insertFine unset w =
      if conflicts w.txn (lastTime (v.head w.dst)).e w.epoch then (false, v)
      else (true, v.addVersion false (isPending (v.head w.dst)) (lastTime (v.head w.dst))
        (lastIndex unset (v.head w.dst)) ((v.head w.dst).elim w.weight Head.weight) w) := by
  unfold insertFine insertHead
  split_ifs
  · have hhead : (v.head w.dst).map (fun h => { h with deleted := false }) = v.head w.dst := by
      cases hh : v.head w.dst with
      | none => rfl
      | some h =>
        have := hlive h hh
        simp only [Option.map_some, ← this]
    rw [hhead, Function.update_eq_self]
  · rfl

end View

namespace History

variable {S : StdSort} {h h' : History}

/-- An insertion on a vertex without deleted destinations: a refused one at most opens its
TmpVersionBlock. -/
theorem insert_cases {env : Env} {w : Write} (hwf : h.state.Wf) (hlive : h.state.view.Live)
    (hlook : (h.state.prepare S env).LookupRight w.dst)
    (hstep : h.step .fineGrain S (.insert env w) = some h') : h'.state.Wf ∧
      (conflicts w.txn (View.lastTime (h.state.view.head w.dst)).e w.epoch = true ∧
        h'.accepted = h.accepted ∧ h'.state.view = h.state.view.openTvb w.epoch ∨
      conflicts w.txn (View.lastTime (h.state.view.head w.dst)).e w.epoch = false ∧
        h'.accepted = h.accepted ++ [w] ∧ ∃ unset, h'.state.view =
          (h.state.view.openTvb w.epoch).addVersion false
            (View.isPending (h.state.view.head w.dst)) (View.lastTime (h.state.view.head w.dst))
            (View.lastIndex unset (h.state.view.head w.dst))
            ((h.state.view.head w.dst).elim w.weight Head.weight) w) := by
  obtain ⟨r, unset, hr, hwf', -, hview⟩ := VertexEdges.insert_live hwf hlive hlook
  have hopen : (h.state.view.openTvb w.epoch).Live := by
    unfold View.Live
    rw [View.head_openTvb]
    exact hlive
  rw [View.insertFine_of_live (hopen _), View.head_openTvb] at hview
  simp only [step, hr, Option.map_some, Option.some.injEq] at hstep
  subst hstep
  refine ⟨hwf', ?_⟩
  cases hc : conflicts w.txn (View.lastTime (h.state.view.head w.dst)).e w.epoch with
  | true =>
    rw [hc, if_pos rfl] at hview
    obtain ⟨hacc, hview⟩ := Prod.mk.inj hview
    exact Or.inl ⟨rfl, by simp [hacc], hview⟩
  | false =>
    rw [hc, if_neg Bool.false_ne_true] at hview
    obtain ⟨hacc, hview⟩ := Prod.mk.inj hview
    exact Or.inr ⟨rfl, by simp [hacc], unset, hview⟩

theorem transform_cases {epoch vb : Nat} (hwf : h.state.Wf)
    (hstep : h.step .fineGrain S (.transform epoch vb) = some h') :
    h'.state.Wf ∧ h'.accepted = h.accepted ∧ h.state.view.stamp (epoch % 16) = epoch ∧
      h'.state.view = h.state.view.transform S (epoch % 16) vb := by
  obtain ⟨n, t, ht, hwf', hview⟩ := VertexEdges.transform_refines (S := S) hwf (epoch % 16) vb
  simp only [step, ht, Option.map_some] at hstep
  split_ifs at hstep with hts
  obtain rfl := Option.some.inj hstep
  exact ⟨hwf', rfl, hts, hview⟩

end History

end AVBGraph
