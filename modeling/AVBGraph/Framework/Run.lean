import Mathlib.Data.List.Basic
import Mathlib.Logic.Function.Basic

namespace AVBGraph.Framework

variable {σ ε : Type*}

/-- Executes a list of events; a disabled event ends the execution with `none`. -/
def exec (step : σ → ε → Option σ) : σ → List ε → Option σ
  | s, [] => some s
  | s, e :: es => (step s e).bind fun t => exec step t es

/-- Every event of the list meets `ok` in the state in which it is executed. -/
def Along (step : σ → ε → Option σ) (ok : σ → ε → Prop) : σ → List ε → Prop
  | _, [] => True
  | s, e :: es => ok s e ∧ ∀ t ∈ step s e, Along step ok t es

instance decidableAlong (step : σ → ε → Option σ) (ok : σ → ε → Prop) [∀ s e, Decidable (ok s e)] :
    ∀ s es, Decidable (Along step ok s es)
  | _, [] => isTrue trivial
  | s, e :: es =>
    have : ∀ t, Decidable (Along step ok t es) := fun t => decidableAlong step ok t es
    inferInstanceAs (Decidable (ok s e ∧ ∀ t ∈ step s e, Along step ok t es))

/-- A computed run: the final state exists and passes a decidable test. -/
theorem exists_exec {step : σ → ε → Option σ} {s : σ} {es : List ε} {P : σ → Prop}
    [DecidablePred P] (h : (exec step s es).any (fun t => decide (P t)) = true) :
    ∃ t, exec step s es = some t ∧ P t := by
  cases ht : exec step s es with
  | none => simp [ht] at h
  | some t => exact ⟨t, rfl, by simpa [ht] using h⟩

theorem exec_append (step : σ → ε → Option σ) (s : σ) (es fs : List ε) :
    exec step s (es ++ fs) = (exec step s es).bind fun t => exec step t fs := by
  induction es generalizing s with
  | nil => rfl
  | cons e es ih =>
    cases h : step s e with
    | none => simp [exec, h]
    | some t => simp [exec, h, ih]

theorem along_append {step : σ → ε → Option σ} {ok : σ → ε → Prop} {s t : σ} {es fs : List ε}
    (hes : exec step s es = some t) :
    Along step ok s (es ++ fs) ↔ Along step ok s es ∧ Along step ok t fs := by
  induction es generalizing s with
  | nil =>
    obtain rfl : s = t := by simpa [exec] using hes
    simp [Along]
  | cons e es ih =>
    cases h : step s e with
    | none => simp [exec, h] at hes
    | some u =>
      have hu : exec step u es = some t := by simpa [exec, h] using hes
      simp [Along, h, ih hu, and_assoc]

/-- An invariant of the single steps is an invariant of the runs. -/
theorem invariant_of_step {step : σ → ε → Option σ} {ok : σ → ε → Prop} {Inv : σ → Prop}
    (hstep : ∀ s e t, Inv s → ok s e → step s e = some t → Inv t)
    {s t : σ} {es : List ε} (hs : Inv s) (hok : Along step ok s es)
    (hrun : exec step s es = some t) : Inv t := by
  induction es generalizing s with
  | nil =>
    obtain rfl : s = t := by simpa [exec] using hrun
    exact hs
  | cons e es ih =>
    cases h : step s e with
    | none => simp [exec, h] at hrun
    | some u =>
      have hu : exec step u es = some t := by simpa [exec, h] using hrun
      exact ih (hstep s e u hs hok.1 h) (hok.2 u h) hu

/-- Without a condition on the steps every run meets it. -/
theorem along_true (step : σ → ε → Option σ) (s : σ) (es : List ε) :
    Along step (fun _ _ => True) s es := by
  induction es generalizing s with
  | nil => trivial
  | cons e es ih => exact ⟨trivial, fun t _ => ih t⟩

theorem Along.mono {step : σ → ε → Option σ} {ok ok' : σ → ε → Prop}
    (h : ∀ s e, ok s e → ok' s e) {s : σ} {es : List ε} (hok : Along step ok s es) :
    Along step ok' s es := by
  induction es generalizing s with
  | nil => trivial
  | cons e es ih => exact ⟨h s e hok.1, fun t ht => ih (hok.2 t ht)⟩

theorem Along.and {step : σ → ε → Option σ} {ok ok' : σ → ε → Prop} {s : σ} {es : List ε}
    (h : Along step ok s es) (h' : Along step ok' s es) :
    Along step (fun s e => ok s e ∧ ok' s e) s es := by
  induction es generalizing s with
  | nil => trivial
  | cons e es ih => exact ⟨⟨h.1, h'.1⟩, fun t ht => ih (h.2 t ht) (h'.2 t ht)⟩

/-- A condition that decides in every step whether the property survives is exact for runs;
`base` is what the steps may assume in any case. -/
theorem along_iff_prefixes {step : σ → ε → Option σ} {base ok : σ → ε → Prop} {I P : σ → Prop}
    (hstep : ∀ s e t, I s → P s → base s e → step s e = some t →
      (ok s e ↔ P t) ∧ (ok s e → I t))
    {s t : σ} {es : List ε} (hinv : I s) (hs : P s) (hbase : Along step base s es)
    (hrun : exec step s es = some t) :
    Along step ok s es ↔ ∀ fs u, fs <+: es → exec step s fs = some u → P u := by
  induction es generalizing s with
  | nil =>
    refine iff_of_true trivial fun fs u hfs hu => ?_
    obtain rfl := List.prefix_nil.mp hfs
    obtain rfl : s = u := by simpa [exec] using hu
    exact hs
  | cons e es ih =>
    cases h : step s e with
    | none => simp [exec, h] at hrun
    | some v =>
      have hv : exec step v es = some t := by simpa [exec, h] using hrun
      have hcons : ∀ fs u, exec step s (e :: fs) = some u ↔ exec step v fs = some u := by
        simp [exec, h]
      obtain ⟨hiff, hnext⟩ := hstep s e v hinv hs hbase.1 h
      have hrest := hbase.2 v h
      constructor
      · rintro ⟨hok, htail⟩ fs u hfs hu
        cases fs with
        | nil =>
          obtain rfl : s = u := by simpa [exec] using hu
          exact hs
        | cons f fs =>
          obtain ⟨rfl, hpre⟩ := List.cons_prefix_cons.mp hfs
          exact (ih (hnext hok) (hiff.mp hok) hrest hv).mp (htail v h) fs u hpre ((hcons fs u).mp hu)
      · intro hall
        have hok : ok s e := hiff.mpr (hall [e] v (by simp) (by simp [exec, h]))
        refine ⟨hok, fun w hw => ?_⟩
        obtain rfl : v = w := by simpa [h] using hw
        exact (ih (hnext hok) (hiff.mp hok) hrest hv).mpr fun fs u hfs hu =>
          hall (e :: fs) u (List.cons_prefix_cons.mpr ⟨rfl, hfs⟩) ((hcons fs u).mpr hu)

/-- What every round of a fallible loop preserves holds after it. -/
theorem foldlM_induction {α β : Type*} {f : β → α → Option β} {Q : β → Prop} {l : List α}
    (hstep : ∀ b, ∀ a ∈ l, ∀ c, Q b → f b a = some c → Q c) {b c : β} (hb : Q b)
    (h : l.foldlM f b = some c) : Q c := by
  induction l generalizing b with
  | nil =>
    obtain rfl : b = c := by simpa using h
    exact hb
  | cons a l ih =>
    rw [List.foldlM_cons] at h
    obtain ⟨d, hd, h⟩ := Option.bind_eq_some_iff.mp h
    exact ih (fun b a ha => hstep b a (List.mem_cons_of_mem _ ha))
      (hstep b a List.mem_cons_self d hb hd) h

/-- Two fallible loops run side by side. -/
theorem foldlM_sim {α β γ : Type*} {f : β → α → Option β} {g : γ → α → Option γ} {R : β → γ → Prop}
    {l : List α} (hstep : ∀ b c, ∀ a ∈ l, R b c → ∃ b' c', f b a = some b' ∧ g c a = some c' ∧ R b' c')
    {b : β} {c : γ} (h : R b c) :
    ∃ b' c', l.foldlM f b = some b' ∧ l.foldlM g c = some c' ∧ R b' c' := by
  induction l generalizing b c with
  | nil => exact ⟨b, c, rfl, rfl, h⟩
  | cons a l ih =>
    obtain ⟨b', c', hb, hc, h'⟩ := hstep b c a List.mem_cons_self h
    obtain ⟨b'', c'', hb', hc', h''⟩ :=
      ih (fun b c a ha => hstep b c a (List.mem_cons_of_mem _ ha)) h'
    exact ⟨b'', c'', by simp [hb, hb'], by simp [hc, hc'], h''⟩

/-- Two machines that run side by side, the second one deciding which runs count. -/
theorem exec_rel {τ : Type*} {step : σ → ε → Option σ} {step' : τ → ε → Option τ}
    {ok : τ → ε → Prop} {R : σ → τ → Prop}
    (hstep : ∀ s t e, R s t → ok t e → Option.Rel R (step s e) (step' t e))
    {s : σ} {t : τ} {es : List ε} (h : R s t) (hok : Along step' ok t es) :
    Option.Rel R (exec step s es) (exec step' t es) := by
  induction es generalizing s t with
  | nil => exact .some h
  | cons e es ih =>
    have he := hstep s t e h hok.1
    have hrest := hok.2
    rw [exec, exec]
    revert he hrest
    generalize step s e = o
    generalize step' t e = o'
    rintro (hst | -) hrest
    · exact ih hst (hrest _ rfl)
    · exact .none

/-- A machine whose steps go down in a well-founded order does not run forever. -/
theorem not_forever {ρ : Type*} {step : σ → ε → Option σ} {r : ρ → ρ → Prop} (hwf : WellFounded r)
    {Ranked : σ → ρ → Prop}
    (hstep : ∀ s e t m, Ranked s m → step s e = some t → ∃ m', r m' m ∧ Ranked t m')
    {run : Nat → σ} {m : ρ} (h : Ranked (run 0) m) :
    ¬ ∀ n, ∃ e, step (run n) e = some (run (n + 1)) := by
  intro hrun
  have hnone (m : ρ) : ∀ n, ¬ Ranked (run n) m := by
    induction m using hwf.induction with
    | _ m ih =>
      intro n hn
      obtain ⟨e, he⟩ := hrun n
      obtain ⟨m', hlt, hm'⟩ := hstep _ e _ m hn he
      exact ih m' hlt (n + 1) hm'
  exact hnone m 0 h

/-- Where every step goes down in rank, the run is no longer than the rank at its start. -/
theorem Along.exists_ranked {step : σ → ε → Option σ} {ok : σ → ε → Prop} {Ranked : σ → Nat → Prop}
    (hstep : ∀ s e t m, Ranked s m → ok s e → step s e = some t → ∃ m' < m, Ranked t m')
    {s t : σ} {es : List ε} {m : Nat} (hs : Ranked s m) (hok : Along step ok s es)
    (hrun : exec step s es = some t) : ∃ m', es.length + m' ≤ m ∧ Ranked t m' := by
  induction es generalizing s m with
  | nil =>
    obtain rfl : s = t := by simpa [exec] using hrun
    exact ⟨m, by simp, hs⟩
  | cons e es ih =>
    obtain ⟨u, hu, hrest⟩ := Option.bind_eq_some_iff.mp hrun
    obtain ⟨m', hlt, hm'⟩ := hstep s e u m hs hok.1 hu
    obtain ⟨m'', hle, hm''⟩ := ih hm' (hok.2 u hu) hrest
    refine ⟨m'', ?_, hm''⟩
    rw [List.length_cons]
    omega

/-- Where every step pays from a potential, the run is no longer than the potential at its start. -/
theorem Along.length_add_le {step : σ → ε → Option σ} {ok : σ → ε → Prop} {Inv : σ → Prop}
    {potential : σ → Nat}
    (hstep : ∀ s e t, Inv s → ok s e → step s e = some t → Inv t ∧ potential t < potential s)
    {s t : σ} {es : List ε} (hs : Inv s) (hok : Along step ok s es)
    (hrun : exec step s es = some t) : es.length + potential t ≤ potential s := by
  have hranked : ∀ s e t m, Inv s ∧ potential s = m → ok s e → step s e = some t →
      ∃ m' < m, Inv t ∧ potential t = m' := by
    rintro s e t _ ⟨hs, rfl⟩ hok ht
    obtain ⟨hinv, hpay⟩ := hstep s e t hs hok ht
    exact ⟨_, hpay, hinv, rfl⟩
  obtain ⟨_, hle, -, rfl⟩ := Along.exists_ranked hranked ⟨hs, rfl⟩ hok hrun
  exact hle

/-- A machine that can always pay for one more step comes to its end. -/
theorem exists_exec_end {step : σ → ε → Option σ} {Inv End : σ → Prop} {potential : σ → Nat}
    (hstep : ∀ s, Inv s → ¬End s →
      ∃ e t, step s e = some t ∧ Inv t ∧ potential t < potential s) {s : σ} (hs : Inv s) :
    ∃ es t, exec step s es = some t ∧ End t := by
  induction hm : potential s using Nat.strongRecOn generalizing s with
  | ind m ih =>
    subst hm
    by_cases hend : End s
    · exact ⟨[], s, rfl, hend⟩
    · obtain ⟨e, t, ht, hinv, hlt⟩ := hstep s hs hend
      obtain ⟨es, u, hu, hend⟩ := ih _ hlt hinv rfl
      exact ⟨e :: es, u, by simp [exec, ht, hu], hend⟩

theorem exec_length_add_le {step : σ → ε → Option σ} {potential : σ → Nat}
    (hstep : ∀ s e t, step s e = some t → potential t < potential s) {s t : σ} {es : List ε}
    (hrun : exec step s es = some t) : es.length + potential t ≤ potential s :=
  (along_true step s es).length_add_le (fun s e t _ _ h => ⟨trivial, hstep s e t h⟩) trivial hrun

section Update

variable {ι α : Type*} [DecidableEq ι]

theorem forall_update {f : ι → α} {i : ι} {x : α} {P : ι → α → Prop} :
    (∀ j, P j (Function.update f i x j)) ↔ P i x ∧ ∀ j, j ≠ i → P j (f j) := by
  constructor
  · intro h
    refine ⟨by simpa using h i, fun j hj => ?_⟩
    simpa [hj] using h j
  · rintro ⟨hi, hne⟩ j
    by_cases hj : j = i
    · subst j; simpa using hi
    · simpa [hj] using hne j hj

end Update

end AVBGraph.Framework
