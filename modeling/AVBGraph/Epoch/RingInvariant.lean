import AVBGraph.Epoch.Registration

namespace AVBGraph.Registration

open Framework

/-- The writer holds `is_create`. -/
def Creation.creating : Creation → Bool
  | .check | .alloc | .load | .bump _ | .release => true
  | _ => false

def Writer.creating : Writer → Bool
  | .registered _ _ pc => pc.creating
  | _ => false

/-- The next VBData is in the ring, but `cur_` does not name it yet. -/
def Creation.allocated : Creation → Bool
  | .load | .bump _ => true
  | _ => false

def Writer.allocated : Writer → Bool
  | .registered _ _ pc => pc.allocated
  | _ => false

def CreationOk (s : State) (cur : Nat) : Creation → Prop
  | .sampled c => cur ≤ c ∧ c ≤ s.cur
  | .cas => s.cur = cur → s.cur < s.readEpoch + 16
  | .check => s.isCreate = 1 ∧ (s.cur = cur → s.cur < s.readEpoch + 16)
  | .alloc => s.isCreate = 1 ∧ s.cur = cur ∧ s.cur < s.readEpoch + 16
  | .load => s.isCreate = 1 ∧ s.cur = cur ∧ s.cur < s.readEpoch + 16 ∧
      s.activeTxns ((cur + 1) % 16) = some (cur + 1)
  | .bump c => s.isCreate = 1 ∧ s.cur = cur ∧ s.cur < s.readEpoch + 16 ∧ c = cur ∧
      s.activeTxns ((cur + 1) % 16) = some (cur + 1)
  | .release => s.isCreate = 1
  | _ => True

/-- A registered writer: its slot protects its epoch, which is not published. -/
structure Registered (maxThreads : Nat) (s : State) (w cur : Nat) : Prop where
  thread : w < maxThreads
  le : cur ≤ s.cur
  slot : s.activeTransactions w = some cur
  unpublished : s.readEpoch < cur

def WriterOk (maxThreads : Nat) (s : State) (w : Nat) : Writer → Prop
  | .idle | .test1 => True
  | .loadedCur cur | .passed cur => cur ≤ s.cur
  | .stored cur => cur ≤ s.cur ∧ s.activeTransactions w = some cur
  | .loadVb cur => Registered maxThreads s w cur
  | .registered cur vb pc => Registered maxThreads s w cur ∧ vb = some cur ∧ CreationOk s cur pc

def PublisherOk (maxThreads : Nat) (s : State) (p : Nat) : Publisher → Prop
  | .idle => True
  | .waiting cur => ArgOk maxThreads s cur
  | .first cur | .advance cur | .next cur => s.mtx = some p ∧ ArgOk maxThreads s cur
  | .test cur vb => s.mtx = some p ∧ ArgOk maxThreads s cur ∧ vb = some (s.readEpoch + 1)
  | .transform cur vb | .push cur vb => s.mtx = some p ∧ ArgOk maxThreads s cur ∧
      vb = some (s.readEpoch + 1) ∧ s.readEpoch + 1 < cur
  | .loadRead cur => s.mtx = some p ∧ ArgOk maxThreads s cur ∧ s.readEpoch + 1 < cur
  | .storeRead cur r => s.mtx = some p ∧ ArgOk maxThreads s cur ∧ r = s.readEpoch ∧
      s.readEpoch + 1 < cur
  | .unlock => s.mtx = some p

/-- Epochs 1 to n in order. -/
def upTo (n : Nat) : List Nat := List.range' 1 n

theorem upTo_succ (n : Nat) : upTo (n + 1) = upTo n ++ [n + 1] := by
  rw [upTo, List.range'_concat, upTo]
  congr 2
  omega

/-- The published epochs and the ring cursor, by the progress of the holder of `mtx_`. -/
def LogOk (s : State) : Publisher → Prop
  | .push _ _ => s.transformed = upTo (s.readEpoch + 1) ∧ s.enqueued = upTo s.readEpoch ∧
      s.readEpochCur = (s.readEpoch + 1) % 16
  | .loadRead _ | .storeRead _ _ => s.transformed = upTo (s.readEpoch + 1) ∧
      s.enqueued = upTo (s.readEpoch + 1) ∧ s.readEpochCur = (s.readEpoch + 1) % 16
  | .advance _ => s.transformed = upTo s.readEpoch ∧ s.enqueued = upTo s.readEpoch ∧
      s.readEpochCur = s.readEpoch % 16
  | _ => s.transformed = upTo s.readEpoch ∧ s.enqueued = upTo s.readEpoch ∧
      s.readEpochCur = (s.readEpoch + 1) % 16

def State.phase (s : State) : Publisher := s.mtx.elim .idle s.publishers

structure Inv (maxThreads : Nat) (s : State) : Prop where
  read_lt : s.readEpoch < s.cur
  cur_le : s.cur ≤ s.readEpoch + 16
  ring : ∀ e, s.readEpoch < e → e ≤ s.cur → s.activeTxns (e % 16) = some e
  content : ∀ i e, s.activeTxns i = some e →
    e % 16 = i ∧ (e ≤ s.cur ∨ e = s.cur + 1 ∧ ∃ w, (s.writers w).allocated = true)
  writers : ∀ w, WriterOk maxThreads s w (s.writers w)
  unique : ∀ v w, (s.writers v).creating = true → (s.writers w).creating = true → v = w
  publishers : ∀ p, PublisherOk maxThreads s p (s.publishers p)
  log : LogOk s s.phase

theorem inv_init (maxThreads isCreate : Nat) : Inv maxThreads (init isCreate) := by
  have hring (i e : Nat) (h : (init isCreate).activeTxns i = some e) : i = 1 ∧ e = 1 := by
    by_cases hi : i = 1 <;> simp_all [init]
  refine ⟨Nat.zero_lt_one, by simp [init], ?_, ?_, fun _ => trivial, by simp [init, Writer.creating],
    fun _ => trivial, ⟨rfl, rfl, rfl⟩⟩
  · intro e h0 h1
    obtain rfl : e = 1 := by simp only [init] at h0 h1; omega
    rfl
  · intro i e h
    obtain ⟨rfl, rfl⟩ := hring i e h
    exact ⟨rfl, Or.inl le_rfl⟩

/-- A writer is untouched by the steps of others: they leave its slot alone, move both epochs
forward, publish nothing that it holds, and do not interfere while it holds `is_create`. -/
theorem WriterOk.frame {n : Nat} {s t : State} {v : Nat} {pc : Writer} (h : WriterOk n s v pc)
    (hslot : t.activeTransactions v = s.activeTransactions v)
    (hcur : s.cur ≤ t.cur) (hre : s.readEpoch ≤ t.readEpoch)
    (hun : ∀ c ∈ pc.epoch, s.readEpoch < c → t.readEpoch < c)
    (hcre : pc.creating = true →
      t.isCreate = s.isCreate ∧ t.cur = s.cur ∧ t.activeTxns = s.activeTxns) :
    WriterOk n t v pc := by
  have reg {c : Nat} (hc : c ∈ pc.epoch) (hr : Registered n s v c) : Registered n t v c :=
    ⟨hr.thread, hr.le.trans hcur, hslot.trans hr.slot, hun c hc hr.unpublished⟩
  cases pc with
  | idle | test1 => trivial
  | loadedCur c | passed c => exact Nat.le_trans h hcur
  | stored c => exact ⟨h.1.trans hcur, hslot.trans h.2⟩
  | loadVb c => exact reg rfl h
  | registered c vb pc =>
    obtain ⟨hr, hvb, hpc⟩ := h
    refine ⟨reg rfl hr, hvb, ?_⟩
    have hle := hr.le
    cases pc with
    | sample | finish | done => trivial
    | sampled d => exact ⟨hpc.1, hpc.2.trans hcur⟩
    | cas =>
      intro heq
      have := hpc (by omega)
      omega
    | check =>
      obtain ⟨h1, h2, -⟩ := hcre rfl
      refine ⟨h1 ▸ hpc.1, fun heq => ?_⟩
      have := hpc.2 (by omega)
      omega
    | alloc =>
      obtain ⟨h1, h2, -⟩ := hcre rfl
      exact ⟨h1 ▸ hpc.1, h2 ▸ hpc.2.1, by have := hpc.2.2; omega⟩
    | load =>
      obtain ⟨h1, h2, h3⟩ := hcre rfl
      obtain ⟨hp1, hp2, hp3, hp4⟩ := hpc
      exact ⟨h1 ▸ hp1, h2 ▸ hp2, by omega, h3 ▸ hp4⟩
    | bump d =>
      obtain ⟨h1, h2, h3⟩ := hcre rfl
      obtain ⟨hp1, hp2, hp3, hp4, hp5⟩ := hpc
      exact ⟨h1 ▸ hp1, h2 ▸ hp2, by omega, hp4, h3 ▸ hp5⟩
    | release =>
      obtain ⟨h1, -, -⟩ := hcre rfl
      exact h1.trans hpc

/-- Outside of `mtx_` a call only relies on its argument. -/
theorem PublisherOk.frame {n : Nat} {s t : State} {p : Nat} {pc : Publisher}
    (h : PublisherOk n s p pc) (harg : ∀ c, ArgOk n s c → ArgOk n t c)
    (hmtx : s.mtx = some p → t.mtx = some p ∧ t.readEpoch = s.readEpoch) :
    PublisherOk n t p pc := by
  cases pc with
  | idle => trivial
  | waiting c => exact harg c h
  | first c | advance c | next c => exact ⟨(hmtx h.1).1, harg c h.2⟩
  | test c vb =>
    obtain ⟨hm, ha, hvb⟩ := h
    exact ⟨(hmtx hm).1, harg c ha, (hmtx hm).2 ▸ hvb⟩
  | transform c vb | push c vb =>
    obtain ⟨hm, ha, hvb, hlt⟩ := h
    exact ⟨(hmtx hm).1, harg c ha, (hmtx hm).2 ▸ hvb, (hmtx hm).2 ▸ hlt⟩
  | loadRead c =>
    obtain ⟨hm, ha, hlt⟩ := h
    exact ⟨(hmtx hm).1, harg c ha, (hmtx hm).2 ▸ hlt⟩
  | storeRead c r =>
    obtain ⟨hm, ha, hr, hlt⟩ := h
    exact ⟨(hmtx hm).1, harg c ha, (hmtx hm).2 ▸ hr, (hmtx hm).2 ▸ hlt⟩
  | unlock => exact (hmtx h).1

/-- A writer step that changes no more than its slot, `is_create`, `cur_` and the ring. -/
theorem inv_writer_of {n : Nat} {s t : State} {w : Nat} (pc : Writer) (h : Inv n s)
    (hwr : t.writers = Function.update s.writers w pc)
    (hframe : t.readEpoch = s.readEpoch ∧ t.mtx = s.mtx ∧ t.publishers = s.publishers ∧
      t.readEpochCur = s.readEpochCur ∧ t.transformed = s.transformed ∧ t.enqueued = s.enqueued)
    (hslot : ∀ v, v ≠ w → t.activeTransactions v = s.activeTransactions v)
    (hcur : s.cur ≤ t.cur) (hroom : t.cur ≤ t.readEpoch + 16)
    (hring : ∀ e, t.readEpoch < e → e ≤ t.cur → t.activeTxns (e % 16) = some e)
    (hcontent : ∀ i e, t.activeTxns i = some e →
      e % 16 = i ∧ (e ≤ t.cur ∨ e = t.cur + 1 ∧ ∃ w, (t.writers w).allocated = true))
    (hepoch : ∀ c ∈ pc.epoch, c ∈ (s.writers w).epoch ∨ c = s.cur)
    (hcre : ∀ v, v ≠ w → (s.writers v).creating = true →
      pc.creating = false ∧ t.isCreate = s.isCreate ∧ t.cur = s.cur ∧ t.activeTxns = s.activeTxns)
    (hpc : WriterOk n t w pc) : Inv n t := by
  obtain ⟨hre, hmtx, hpub, hrc, htr, henq⟩ := hframe
  have hw (v : Nat) (hv : v ≠ w) : t.writers v = s.writers v := by
    rw [hwr, Function.update_of_ne hv]
  have hww : t.writers w = pc := by rw [hwr, Function.update_self]
  have hlt := h.read_lt
  refine ⟨by omega, hroom, hring, hcontent, ?_, ?_, ?_, ?_⟩
  · rw [hwr]
    refine forall_update.mpr ⟨hpc, fun v hv => ?_⟩
    exact (h.writers v).frame (hslot v hv) hcur hre.ge (fun c _ hc => hre ▸ hc)
      fun hc => (hcre v hv hc).2
  · intro u v hu hv
    by_cases huw : u = w <;> by_cases hvw : v = w
    · exact huw.trans hvw.symm
    · rw [huw, hww] at hu
      rw [hw v hvw] at hv
      exact absurd hu (by simp [(hcre v hvw hv).1])
    · rw [hvw, hww] at hv
      rw [hw u huw] at hu
      exact absurd hv (by simp [(hcre u huw hu).1])
    · rw [hw u huw] at hu
      rw [hw v hvw] at hv
      exact h.unique u v hu hv
  · intro p
    rw [hpub]
    refine (h.publishers p).frame (fun c hc => ⟨hc.1.trans hcur, fun v hv d hd => ?_⟩)
      fun hm => ⟨hmtx ▸ hm, hre⟩
    by_cases hvw : v = w
    · subst v
      rw [hww] at hd
      rcases hepoch d hd with hd | rfl
      · exact hc.2 w hv d hd
      · exact hc.1
    · rw [hw v hvw] at hd
      exact hc.2 v hv d hd
  · have hlog := h.log
    have hph : t.phase = s.phase := by rw [State.phase, State.phase, hmtx, hpub]
    rw [hph]
    unfold LogOk at hlog ⊢
    rw [hre, hrc, htr, henq]
    exact hlog

/-- A writer step that changes no more than its slot: it neither takes `is_create` nor
finishes a creation. -/
theorem inv_setWriter {n : Nat} {s : State} {w : Nat} (pc : Writer) (h : Inv n s)
    (slot : Option Nat)
    (hepoch : ∀ c ∈ pc.epoch, c ∈ (s.writers w).epoch ∨ c = s.cur)
    (hcre : pc.creating = true → (s.writers w).creating = true)
    (hall : (s.writers w).allocated = true → pc.allocated = true)
    (hpc : WriterOk n { s with
      activeTransactions := Function.update s.activeTransactions w slot } w pc) :
    Inv n (setWriter { s with
      activeTransactions := Function.update s.activeTransactions w slot } w pc) := by
  refine inv_writer_of _ h rfl ⟨rfl, rfl, rfl, rfl, rfl, rfl⟩
    (fun v hv => Function.update_of_ne hv _ _) le_rfl h.cur_le h.ring ?_ hepoch ?_
    (hpc.frame rfl le_rfl le_rfl (fun _ _ hc => hc) fun _ => ⟨rfl, rfl, rfl⟩)
  · intro i e hi
    obtain ⟨hmod, hle | ⟨heq, v, hv⟩⟩ := h.content i e hi
    · exact ⟨hmod, Or.inl hle⟩
    · refine ⟨hmod, Or.inr ⟨heq, v, ?_⟩⟩
      by_cases hvw : v = w
      · subst v
        simpa [setWriter] using hall hv
      · simpa [setWriter, hvw] using hv
  · intro v hv hc
    refine ⟨?_, rfl, rfl, rfl⟩
    by_contra hne
    exact hv (h.unique v w hc (hcre (by simpa using hne)))

theorem Inv.isCreate_of_creating {n : Nat} {s : State} (h : Inv n s) {w : Nat}
    (hw : (s.writers w).creating = true) : s.isCreate = 1 := by
  have hok := h.writers w
  cases hpc : s.writers w with
  | registered cur vb pc =>
    rw [hpc] at hok hw
    obtain ⟨-, -, hok⟩ := hok
    cases pc with
    | sample | sampled | cas | finish | done => cases hw
    | check | alloc | load | bump => exact hok.1
    | release => exact hok
  | _ => rw [hpc] at hw; cases hw

theorem Writer.creating_of_allocated {pc : Writer} (h : pc.allocated = true) :
    pc.creating = true := by
  cases pc with
  | registered cur vb pc => cases pc <;> first | rfl | cases h
  | _ => cases h

theorem Inv.isCreate_of_allocated {n : Nat} {s : State} (h : Inv n s) {w : Nat}
    (hw : (s.writers w).allocated = true) : s.isCreate = 1 :=
  h.isCreate_of_creating (Writer.creating_of_allocated hw)

theorem inv_creation {n : Nat} {s : State} {w cur : Nat} {vb : Option Nat} {pc : Creation}
    (h : Inv n s) (hpc : s.writers w = .registered cur vb pc) (create : Bool) :
    Inv n (stepCreation s w cur vb create pc) := by
  obtain ⟨hreg, hvb, hok⟩ : Registered n s w cur ∧ vb = some cur ∧ CreationOk s cur pc := by
    have hw := h.writers w
    rwa [hpc] at hw
  have hlt := h.read_lt
  -- the steps that only move on
  have keep (pc' : Creation) (hcre : pc'.creating = true → pc.creating = true)
      (hall : pc.allocated = true → pc'.allocated = true) (hok' : CreationOk s cur pc') :
      Inv n (setWriter s w (.registered cur vb pc')) := by
    have hh := inv_setWriter (.registered cur vb pc') h (s.activeTransactions w)
      (fun c hc => Or.inl (by rw [hpc]; exact hc))
      (by simpa [hpc, Writer.creating] using hcre) (by simpa [hpc, Writer.allocated] using hall)
      (by rw [Function.update_eq_self]; exact ⟨hreg, hvb, hok'⟩)
    rwa [Function.update_eq_self] at hh
  have others (hc : pc.creating = true) : ∀ v, v ≠ w → (s.writers v).creating = true → False :=
    fun v hv hcv => hv (h.unique v w hcv (by simpa [hpc, Writer.creating] using hc))
  cases pc with
  | sample => exact keep _ (by simp [Creation.creating]) (by simp [Creation.allocated]) ⟨hreg.le, le_rfl⟩
  | sampled c =>
    simp only [stepCreation]
    split_ifs with hroom
    · refine keep _ (by simp [Creation.creating]) (by simp [Creation.allocated]) fun heq => ?_
      obtain ⟨h1, h2⟩ := hok
      simp only [hasRoom, Bool.and_eq_true, decide_eq_true_eq] at hroom
      omega
    · exact keep _ (by simp [Creation.creating]) (by simp [Creation.allocated]) trivial
  | cas =>
    simp only [stepCreation]
    split_ifs with hfree
    · refine inv_writer_of _ h rfl ⟨rfl, rfl, rfl, rfl, rfl, rfl⟩ (fun _ _ => rfl) le_rfl h.cur_le
        h.ring ?_ (fun c hc => Or.inl (by rw [hpc]; exact hc)) ?_ ?_
      · intro i e hi
        obtain ⟨hmod, hle | ⟨-, v, hv⟩⟩ := h.content i e hi
        · exact ⟨hmod, Or.inl hle⟩
        · -- nobody creates while is_create is 0
          exact absurd hfree (by simp [h.isCreate_of_allocated hv])
      · intro v _ hc
        exact absurd hfree (by simp [h.isCreate_of_creating hc])
      · exact ⟨⟨hreg.thread, hreg.le, hreg.slot, hreg.unpublished⟩, hvb, rfl, hok⟩
    · exact keep _ (by simp [Creation.creating]) (by simp [Creation.allocated]) trivial
  | check =>
    simp only [stepCreation]
    split_ifs with heq
    · exact keep _ (by simp [Creation.creating]) (by simp [Creation.allocated])
        ⟨hok.1, heq.symm, hok.2 heq.symm⟩
    · exact keep _ (by simp [Creation.creating]) (by simp [Creation.allocated]) hok.1
  | alloc =>
    obtain ⟨hcreate, hcur, hroom⟩ := hok
    have hnext : (cur % 16 + 1) % 16 = (cur + 1) % 16 := by omega
    simp only [stepCreation, hnext]
    refine inv_writer_of (.registered cur vb .load) h rfl ⟨rfl, rfl, rfl, rfl, rfl, rfl⟩
      (fun _ _ => rfl) le_rfl h.cur_le ?_ ?_ (fun c hc => Or.inl (by rw [hpc]; exact hc))
      (fun v hv hc => (others rfl v hv hc).elim) ?_
    · intro e h0 h1
      simp only [setWriter] at h0 h1 ⊢
      rw [Function.update_of_ne (by omega)]
      exact h.ring e h0 h1
    · intro i e hi
      by_cases hin : i = (cur + 1) % 16
      · subst i
        obtain rfl : cur + 1 = e := by simpa [setWriter] using hi
        exact ⟨rfl, Or.inr ⟨by simp [setWriter, hcur], w,
          by simp [setWriter, Writer.allocated, Creation.allocated]⟩⟩
      · obtain ⟨hmod, hle | ⟨-, v, hv⟩⟩ := h.content i e (by simpa [setWriter, hin] using hi)
        · exact ⟨hmod, Or.inl hle⟩
        · by_cases hvw : v = w
          · subst v
            rw [hpc] at hv
            cases hv
          · exact (others rfl v hvw (Writer.creating_of_allocated hv)).elim
    · exact ⟨⟨hreg.thread, hreg.le, hreg.slot, hreg.unpublished⟩, hvb, hcreate, hcur, hroom,
        by simp [setWriter]⟩
  | load =>
    obtain ⟨hcreate, hcur, hroom, hslot⟩ := hok
    exact keep _ (by simp [Creation.creating]) (by simp [Creation.allocated])
      ⟨hcreate, hcur, hroom, hcur, hslot⟩
  | bump c =>
    obtain ⟨hcreate, hcur, hroom, rfl, hslot⟩ := hok
    simp only [stepCreation]
    refine inv_writer_of (.registered c vb .release) h rfl ⟨rfl, rfl, rfl, rfl, rfl, rfl⟩
      (fun _ _ => rfl) (by simp [setWriter, hcur]) (by simp only [setWriter]; omega) ?_ ?_
      (fun c hc => Or.inl (by rw [hpc]; exact hc)) (fun v hv hc => (others rfl v hv hc).elim) ?_
    · intro e h0 h1
      simp only [setWriter] at h0 h1 ⊢
      rcases Nat.lt_or_eq_of_le h1 with h1 | rfl
      · exact h.ring e h0 (by omega)
      · exact hslot
    · intro i e hi
      obtain ⟨hmod, hle⟩ := h.content i e hi
      exact ⟨hmod, Or.inl (by simp only [setWriter]; omega)⟩
    · exact ⟨⟨hreg.thread, Nat.le_succ c, hreg.slot, hreg.unpublished⟩, hvb, hcreate⟩
  | release =>
    refine inv_writer_of _ h rfl ⟨rfl, rfl, rfl, rfl, rfl, rfl⟩ (fun _ _ => rfl) le_rfl h.cur_le
      h.ring ?_ (fun c hc => Or.inl (by rw [hpc]; exact hc))
      (fun v hv hc => (others rfl v hv hc).elim) ?_
    · intro i e hi
      obtain ⟨hmod, hle | ⟨-, v, hv⟩⟩ := h.content i e hi
      · exact ⟨hmod, Or.inl hle⟩
      · by_cases hvw : v = w
        · subst v
          rw [hpc] at hv
          cases hv
        · exact (others rfl v hvw (Writer.creating_of_allocated hv)).elim
    · exact ⟨⟨hreg.thread, hreg.le, hreg.slot, hreg.unpublished⟩, hvb, trivial⟩
  | finish => exact keep _ (by simp [Creation.creating]) (by simp [Creation.allocated]) trivial
  | done r =>
    simp only [stepCreation]
    exact inv_setWriter _ h none (by simp [Writer.epoch]) (by simp [Writer.creating])
      (by simp [hpc, Writer.allocated, Creation.allocated]) trivial

theorem inv_writer {n : Nat} {s : State} {w : Nat} (h : Inv n s) (hw : w < n) (create : Bool) :
    Inv n (stepWriter s w create) := by
  have hok := h.writers w
  -- before the registration a step changes the writer alone
  have keep (pc : Writer) (hepoch : ∀ c ∈ pc.epoch, c = s.cur) (hcre : pc.creating = false)
      (hall : (s.writers w).allocated = false) (hpc : WriterOk n s w pc) :
      Inv n (setWriter s w pc) := by
    have hh := inv_setWriter (w := w) pc h (s.activeTransactions w)
      (fun c hc => Or.inr (hepoch c hc)) (by simp [hcre]) (by simp [hall])
      (by rwa [Function.update_eq_self])
    rwa [Function.update_eq_self] at hh
  unfold stepWriter
  cases hpc : s.writers w with
  | idle | test1 => exact keep _ (by simp [Writer.epoch]) rfl (by rw [hpc]; rfl) le_rfl
  | loadedCur nw =>
    rw [hpc] at hok
    simp only
    split_ifs
    · exact keep _ (by simp [Writer.epoch]) rfl (by rw [hpc]; rfl) hok
    · exact keep _ (by simp [Writer.epoch]) rfl (by rw [hpc]; rfl) trivial
  | passed cur =>
    rw [hpc] at hok
    exact inv_setWriter _ h (some cur) (by simp [Writer.epoch]) (by simp [Writer.creating])
      (by simp [hpc, Writer.allocated]) ⟨hok, Function.update_self ..⟩
  | stored cur =>
    rw [hpc] at hok
    simp only
    split_ifs with heq
    · -- the re-check: nothing at or above cur_ is published
      refine keep _ (by simp [Writer.epoch, heq]) rfl (by rw [hpc]; rfl) ?_
      exact ⟨hw, hok.1, hok.2, heq ▸ h.read_lt⟩
    · exact keep _ (by simp [Writer.epoch]) rfl (by rw [hpc]; rfl) trivial
  | loadVb cur =>
    rw [hpc] at hok
    have hvb := h.ring cur hok.unpublished hok.le
    have hh := inv_setWriter (.registered cur (s.activeTxns (cur % 16)) .sample) h
      (s.activeTransactions w) (fun c hc => Or.inl (by rw [hpc]; exact hc))
      (by simp [Writer.creating, Creation.creating]) (by simp [hpc, Writer.allocated])
      (by rw [Function.update_eq_self]; exact ⟨hok, hvb, trivial⟩)
    rwa [Function.update_eq_self] at hh
  | registered cur vb pc => exact inv_creation h hpc create

theorem Inv.registered {n : Nat} {s : State} (h : Inv n s) {w c : Nat}
    (hc : c ∈ (s.writers w).epoch) : Registered n s w c := by
  have hok := h.writers w
  cases hpc : s.writers w with
  | loadVb d =>
    rw [hpc] at hok hc
    obtain rfl : d = c := Option.some.inj hc
    exact hok
  | registered d vb pc =>
    rw [hpc] at hok hc
    obtain rfl : d = c := Option.some.inj hc
    exact hok.1
  | _ => rw [hpc] at hc; cases hc

/-- A step of the holder of `mtx_`, or of a call that takes or releases it. -/
theorem inv_publisher_of {n : Nat} {s t : State} {p : Nat} {pc : Publisher} (h : Inv n s)
    (hpub : t.publishers = Function.update s.publishers p pc)
    (hframe : t.cur = s.cur ∧ t.isCreate = s.isCreate ∧ t.activeTxns = s.activeTxns ∧
      t.activeTransactions = s.activeTransactions ∧ t.writers = s.writers)
    (hre : s.readEpoch ≤ t.readEpoch) (hlt : t.readEpoch < t.cur)
    (hun : ∀ w < n, ∀ c ∈ (s.writers w).epoch, t.readEpoch < c)
    (hmtx : ∀ q, q ≠ p → s.mtx = some q → t.mtx = some q ∧ t.readEpoch = s.readEpoch)
    (hpc : PublisherOk n t p pc) (hlog : LogOk t t.phase) : Inv n t := by
  obtain ⟨hcur, hic, htx, hat, hwr⟩ := hframe
  have hle := h.cur_le
  refine ⟨hlt, by omega, ?_, ?_, ?_, ?_, ?_, hlog⟩
  · intro e h0 h1
    rw [htx]
    exact h.ring e (by omega) (by omega)
  · rw [htx, hcur, hwr]
    exact h.content
  · intro w
    rw [hwr]
    exact (h.writers w).frame (by rw [hat]) hcur.ge hre
      (fun c hc _ => hun w (h.registered hc).thread c hc) fun _ => ⟨hic, hcur, htx⟩
  · rw [hwr]
    exact h.unique
  · rw [hpub]
    refine forall_update.mpr ⟨hpc, fun q hq => ?_⟩
    refine (h.publishers q).frame (fun c hc => ?_) (hmtx q hq)
    rwa [ArgOk, hcur, hwr]

theorem inv_publisher {n : Nat} {s t : State} {p : Nat} (h : Inv n s)
    (ht : stepPublisher s p = some t) : Inv n t := by
  have hok := h.publishers p
  have hlt := h.read_lt
  have hunp : ∀ w < n, ∀ c ∈ (s.writers w).epoch, s.readEpoch < c :=
    fun w _ c hc => (h.registered hc).unpublished
  have hlog := h.log
  -- the holder of mtx_ excludes the others
  have alone (hm : s.mtx = some p) {t : State} : ∀ q, q ≠ p → s.mtx = some q →
      t.mtx = some q ∧ t.readEpoch = s.readEpoch := by
    intro q hq hmq
    exact absurd (Option.some.inj (hmq.symm.trans hm)) hq
  have phase (hm : s.mtx = some p) : s.phase = s.publishers p := by rw [State.phase, hm]; rfl
  have ring : s.activeTxns ((s.readEpoch + 1) % 16) = some (s.readEpoch + 1) :=
    h.ring _ (Nat.lt_succ_self _) hlt
  -- the steps that only move on
  have move (pc : Publisher) (hm : s.mtx = some p) (hpc : PublisherOk n s p pc)
      (hl : LogOk s pc) : Inv n (setPublisher s p pc) := by
    refine inv_publisher_of h rfl ⟨rfl, rfl, rfl, rfl, rfl⟩ le_rfl hlt hunp (alone hm) ?_ ?_
    · cases pc <;> exact hpc
    · have hph : (setPublisher s p pc).phase = pc := by simp [State.phase, setPublisher, hm]
      rw [hph]
      cases pc <;> exact hl
  unfold stepPublisher at ht
  cases hpc : s.publishers p with
  | idle => simp [hpc] at ht
  | waiting cur =>
    simp only [hpc] at ht hok
    split_ifs at ht with hm
    obtain rfl := Option.some.inj ht
    refine inv_publisher_of h rfl ⟨rfl, rfl, rfl, rfl, rfl⟩ le_rfl hlt hunp ?_ ⟨rfl, hok⟩ ?_
    · intro q _ hmq
      rw [hm] at hmq
      cases hmq
    · simpa [State.phase, hm, setPublisher, LogOk] using hlog
  | first cur =>
    simp only [hpc] at ht hok
    obtain ⟨hm, harg⟩ := hok
    rw [phase hm, hpc] at hlog
    obtain rfl := Option.some.inj ht
    have hcur := hlog.2.2
    exact move _ hm ⟨hm, harg, hcur ▸ ring⟩ hlog
  | test cur vb =>
    simp only [hpc] at ht hok
    obtain ⟨hm, harg, hvb⟩ := hok
    rw [phase hm, hpc] at hlog
    obtain rfl := Option.some.inj ht
    split_ifs with hle
    · exact move _ hm ⟨hm, harg, hvb, hle⟩ hlog
    · exact move _ hm hm hlog
  | transform cur vb =>
    simp only [hpc] at ht hok
    obtain ⟨hm, harg, rfl, hle⟩ := hok
    rw [phase hm, hpc] at hlog
    obtain ⟨htr, henq, hcur⟩ := hlog
    obtain rfl := Option.some.inj ht
    refine inv_publisher_of h rfl ⟨rfl, rfl, rfl, rfl, rfl⟩ le_rfl hlt hunp (alone hm)
      ⟨hm, harg, rfl, hle⟩ ?_
    simp [State.phase, hm, setPublisher, LogOk, upTo_succ, htr, henq, hcur]
  | push cur vb =>
    simp only [hpc] at ht hok
    obtain ⟨hm, harg, rfl, hle⟩ := hok
    rw [phase hm, hpc] at hlog
    obtain ⟨htr, henq, hcur⟩ := hlog
    obtain rfl := Option.some.inj ht
    refine inv_publisher_of h rfl ⟨rfl, rfl, rfl, rfl, rfl⟩ le_rfl hlt hunp (alone hm)
      ⟨hm, harg, hle⟩ ?_
    simp [State.phase, hm, setPublisher, LogOk, upTo_succ, htr, henq, hcur]
  | loadRead cur =>
    simp only [hpc] at ht hok
    obtain ⟨hm, harg, hle⟩ := hok
    rw [phase hm, hpc] at hlog
    obtain rfl := Option.some.inj ht
    exact move _ hm ⟨hm, harg, rfl, hle⟩ hlog
  | storeRead cur r =>
    simp only [hpc] at ht hok
    obtain ⟨hm, harg, rfl, hle⟩ := hok
    rw [phase hm, hpc] at hlog
    obtain ⟨htr, henq, hcur⟩ := hlog
    obtain rfl := Option.some.inj ht
    -- the epoch that becomes published is below the argument, hence below every writer
    refine inv_publisher_of h rfl ⟨rfl, rfl, rfl, rfl, rfl⟩ (Nat.le_succ _)
      (hle.trans_le harg.1) (fun w hw c hc => hle.trans_le (harg.2 w hw c hc)) ?_ ⟨hm, harg⟩ ?_
    · intro q hq hmq
      exact absurd (Option.some.inj (hmq.symm.trans hm)) hq
    · simp [State.phase, hm, setPublisher, LogOk, htr, henq, hcur]
  | advance cur =>
    simp only [hpc] at ht hok
    obtain ⟨hm, harg⟩ := hok
    rw [phase hm, hpc] at hlog
    obtain ⟨htr, henq, hcur⟩ := hlog
    obtain rfl := Option.some.inj ht
    refine inv_publisher_of h rfl ⟨rfl, rfl, rfl, rfl, rfl⟩ le_rfl hlt hunp (alone hm)
      ⟨hm, harg⟩ ?_
    have hnext : (if s.readEpochCur = 15 then 0 else s.readEpochCur + 1) =
        (s.readEpoch + 1) % 16 := by
      split_ifs <;> omega
    simp [State.phase, hm, setPublisher, LogOk, htr, henq, hnext]
  | next cur =>
    simp only [hpc] at ht hok
    obtain ⟨hm, harg⟩ := hok
    rw [phase hm, hpc] at hlog
    obtain rfl := Option.some.inj ht
    have hcur := hlog.2.2
    exact move _ hm ⟨hm, harg, hcur ▸ ring⟩ hlog
  | unlock =>
    simp only [hpc] at ht hok
    rw [phase hok, hpc] at hlog
    obtain rfl := Option.some.inj ht
    refine inv_publisher_of h rfl ⟨rfl, rfl, rfl, rfl, rfl⟩ le_rfl hlt hunp ?_ trivial hlog
    intro q hq hmq
    exact absurd (Option.some.inj (hmq.symm.trans hok)) hq

theorem inv_step {n : Nat} (s : State) (e : Event) (t : State) (h : Inv n s) (hok : CallOk n s e)
    (ht : step n s e = some t) : Inv n t := by
  cases e with
  | writer w create =>
    rw [step] at ht
    split_ifs at ht with hw
    obtain rfl := Option.some.inj ht
    exact inv_writer h hw create
  | call p cur =>
    rw [step] at ht
    split_ifs at ht with hp
    obtain rfl := Option.some.inj ht
    have hlog := h.log
    refine inv_publisher_of h rfl ⟨rfl, rfl, rfl, rfl, rfl⟩ le_rfl h.read_lt
      (fun w _ c hc => (h.registered hc).unpublished) (fun q _ hmq => ⟨hmq, rfl⟩) hok ?_
    by_cases hm : s.mtx = some p
    · have hph : s.phase = .idle := by simp [State.phase, hm, hp]
      rw [hph] at hlog
      simpa [State.phase, setPublisher, hm, LogOk] using hlog
    · have hph : (setPublisher s p (.waiting cur)).phase = s.phase := by
        cases hq : s.mtx with
        | none => simp [State.phase, setPublisher, hq]
        | some q =>
          have hne : q ≠ p := fun h => hm (h ▸ hq)
          simp [State.phase, setPublisher, hq, hne]
      rw [hph]
      cases hpc : s.phase <;> rw [hpc] at hlog <;> exact hlog
  | publisher p => exact inv_publisher h ht

/-- The publication log: epochs 1, 2, 3, ... each once, the last one possibly in progress. -/
def PublishedOnce (s : State) (log : List Nat) : Prop :=
  log = upTo s.readEpoch ∨ log = upTo (s.readEpoch + 1)

theorem LogOk.publishedOnce {s : State} {pc : Publisher} (h : LogOk s pc) :
    PublishedOnce s s.transformed ∧ PublishedOnce s s.enqueued := by
  cases pc with
  | push => exact ⟨Or.inr h.1, Or.inl h.2.1⟩
  | loadRead | storeRead => exact ⟨Or.inr h.1, Or.inr h.2.1⟩
  | _ => exact ⟨Or.inl h.1, Or.inl h.2.1⟩

/-- The ring cursor lags behind `read_epoch_` only between the two stores of one iteration. -/
theorem Inv.readEpochCur {n : Nat} {s : State} (h : Inv n s) :
    (∃ p cur, s.mtx = some p ∧ s.publishers p = .advance cur ∧
      s.readEpochCur = s.readEpoch % 16) ∨
    ((∀ p cur, s.publishers p ≠ .advance cur) ∧ s.readEpochCur = (s.readEpoch + 1) % 16) := by
  have hlog := h.log
  by_cases hadv : ∃ p cur, s.publishers p = .advance cur
  · obtain ⟨p, cur, hp⟩ := hadv
    have hok := h.publishers p
    rw [hp] at hok
    have hph : s.phase = .advance cur := by rw [State.phase, hok.1]; exact hp
    rw [hph] at hlog
    exact Or.inl ⟨p, cur, hok.1, hp, hlog.2.2⟩
  · have hne : ∀ p cur, s.publishers p ≠ .advance cur := fun p cur hp => hadv ⟨p, cur, hp⟩
    refine Or.inr ⟨hne, ?_⟩
    cases hph : s.phase with
    | advance cur =>
      cases hm : s.mtx with
      | none => simp [State.phase, hm] at hph
      | some p => exact absurd (by simpa [State.phase, hm] using hph) (hne p cur)
    | _ => rw [hph] at hlog; exact hlog.2.2

theorem stepPublisher_frame {s t : State} {p : Nat} (ht : stepPublisher s p = some t) :
    t.cur = s.cur ∧ t.writers = s.writers ∧ t.activeTxns = s.activeTxns := by
  unfold stepPublisher at ht
  cases hpc : s.publishers p <;> simp only [hpc, Option.map_eq_some_iff] at ht
  case waiting =>
    split_ifs at ht
    obtain rfl := Option.some.inj ht
    exact ⟨rfl, rfl, rfl⟩
  case transform | push =>
    obtain ⟨_, _, rfl⟩ := ht
    exact ⟨rfl, rfl, rfl⟩
  case idle => cases ht
  all_goals
    obtain rfl := Option.some.inj ht
    exact ⟨rfl, rfl, rfl⟩

/-- `cur_` never goes back, and a new registration takes its current value. -/
theorem Inv.step_mono {n : Nat} {s t : State} {e : Event} (h : Inv n s)
    (ht : step n s e = some t) : s.cur ≤ t.cur ∧
      ∀ v, ∀ c ∈ (t.writers v).epoch, c ∈ (s.writers v).epoch ∨ c = s.cur := by
  cases e with
  | call p cur =>
    rw [step] at ht
    split_ifs at ht
    obtain rfl := Option.some.inj ht
    exact ⟨le_rfl, fun v c hc => Or.inl hc⟩
  | publisher p =>
    obtain ⟨hcur, hwr, -⟩ := stepPublisher_frame ht
    exact ⟨hcur.ge, fun v c hc => Or.inl (hwr ▸ hc)⟩
  | writer w create =>
    rw [step] at ht
    split_ifs at ht
    obtain rfl := Option.some.inj ht
    have hok := h.writers w
    -- only the writer itself moves
    have of {t : State} {pc : Writer} (hcur : s.cur ≤ t.cur)
        (hwr : t.writers = Function.update s.writers w pc)
        (hpc : ∀ c ∈ pc.epoch, c ∈ (s.writers w).epoch ∨ c = s.cur) : s.cur ≤ t.cur ∧
        ∀ v, ∀ c ∈ (t.writers v).epoch, c ∈ (s.writers v).epoch ∨ c = s.cur := by
      refine ⟨hcur, fun v c hc => ?_⟩
      by_cases hv : v = w
      · subst v
        rw [hwr, Function.update_self] at hc
        exact hpc c hc
      · rw [hwr, Function.update_of_ne hv] at hc
        exact Or.inl hc
    unfold stepWriter
    cases hpc : s.writers w with
    | idle | test1 | passed => exact of le_rfl rfl (by simp [Writer.epoch])
    | loadedCur nw => exact of le_rfl rfl (by split_ifs <;> simp [Writer.epoch])
    | stored cur =>
      refine of le_rfl rfl ?_
      split_ifs with heq
      · simp [Writer.epoch, heq]
      · simp [Writer.epoch]
    | loadVb cur => exact of le_rfl rfl fun c hc => Or.inl (by rw [hpc]; exact hc)
    | registered cur vb pc =>
      rw [hpc] at hok
      cases pc with
      | bump d =>
        obtain ⟨-, -, -, hcur, -, hd, -⟩ := hok
        exact of (by simp only [stepCreation, setWriter]; omega) rfl
          fun c hc => Or.inl (by rw [hpc]; exact hc)
      | cas =>
        simp only [stepCreation]
        split_ifs
        · exact of le_rfl rfl fun c hc => Or.inl (by rw [hpc]; exact hc)
        · exact of le_rfl rfl fun c hc => Or.inl (by rw [hpc]; exact hc)
      | done r => exact of le_rfl rfl (by simp [Writer.epoch])
      | _ => exact of le_rfl rfl fun c hc => Or.inl (by rw [hpc]; exact hc)

theorem ArgOk.step {n : Nat} {s t : State} {e : Event} {c : Nat} (harg : ArgOk n s c)
    (h : Inv n s) (ht : step n s e = some t) : ArgOk n t c := by
  obtain ⟨hcur, hep⟩ := h.step_mono ht
  refine ⟨harg.1.trans hcur, fun w hw d hd => ?_⟩
  rcases hep w d hd with hd | rfl
  · exact harg.2 w hw d hd
  · exact harg.1

/-- A step leaves the ring slots of unpublished epochs alone. -/
theorem Inv.slot_kept {n : Nat} {s t : State} {e : Event} (h : Inv n s)
    (ht : step n s e = some t) {i k : Nat} (hi : s.activeTxns i = some k)
    (hk : s.readEpoch < k) : t.activeTxns i = some k := by
  obtain ⟨hmod, hcase⟩ := h.content i k hi
  cases e with
  | call p cur =>
    rw [step] at ht
    split_ifs at ht
    obtain rfl := Option.some.inj ht
    exact hi
  | publisher p =>
    rw [(stepPublisher_frame ht).2.2]
    exact hi
  | writer w create =>
    rw [step] at ht
    split_ifs at ht
    obtain rfl := Option.some.inj ht
    have hok := h.writers w
    unfold stepWriter
    cases hpc : s.writers w with
    | registered cur vb pc =>
      rw [hpc] at hok
      cases pc with
      | alloc =>
        obtain ⟨-, -, -, hcur, hroom⟩ := hok
        -- the slot that is written belonged to an epoch at least 16 behind cur + 1
        have hne : i ≠ (cur % 16 + 1) % 16 := by
          rintro rfl
          rcases hcase with hle | ⟨-, v, hv⟩
          · omega
          · have hvw := h.unique v w (Writer.creating_of_allocated hv)
              (by rw [hpc]; rfl)
            rw [hvw, hpc] at hv
            cases hv
        exact (Function.update_of_ne hne _ _).trans hi
      | cas => simp only [stepCreation]; split_ifs <;> exact hi
      | _ => exact hi
    | _ => exact hi

/-- What holds of the counters, the ring and the log in every reachable state. -/
structure RingOwned (maxThreads : Nat) (s : State) : Prop where
  gap : s.readEpoch < s.cur ∧ s.cur ≤ s.readEpoch + 16
  cursor : (∃ p cur, s.mtx = some p ∧ s.publishers p = .advance cur ∧
      s.readEpochCur = s.readEpoch % 16) ∨
    ((∀ p cur, s.publishers p ≠ .advance cur) ∧ s.readEpochCur = (s.readEpoch + 1) % 16)
  vbData : ∀ w cur vb pc, s.writers w = .registered cur vb pc → vb = some cur
  slots : ∀ e, s.readEpoch < e → e ≤ s.cur → s.activeTxns (e % 16) = some e
  kept : ∀ e t, step maxThreads s e = some t →
    ∀ i k, s.activeTxns i = some k → s.readEpoch < k → t.activeTxns i = some k
  transformed : PublishedOnce s s.transformed
  enqueued : PublishedOnce s s.enqueued

theorem Inv.ringOwned {n : Nat} {s : State} (h : Inv n s) : RingOwned n s where
  gap := ⟨h.read_lt, h.cur_le⟩
  cursor := h.readEpochCur
  vbData := by
    intro w cur vb pc hpc
    have hok := h.writers w
    rw [hpc] at hok
    exact hok.2.1
  slots := h.ring
  kept := fun _ _ ht _ _ hi hk => h.slot_kept ht hi hk
  transformed := h.log.publishedOnce.1
  enqueued := h.log.publishedOnce.2

/-- Epoch ring ownership and exactly-once publication, in every interleaving of writers and
of commitVersionBlock calls whose arguments spare `cur_` and the registered writers. -/
theorem ring_owned (n isCreate : Nat) (es : List Event) (s : State)
    (hrun : exec (step n) (init isCreate) es = some s)
    (hok : Along (step n) (CallOk n) (init isCreate) es) : RingOwned n s :=
  (invariant_of_step inv_step (inv_init n isCreate) hok hrun).ringOwned

/-- Writer 0 opens epoch 2 and deregisters, then epoch 1 is committed up to `read_epoch_++`. -/
def midPublication : List Event :=
  .writer 0 false :: List.replicate 14 (.writer 0 true) ++
    .call 0 2 :: List.replicate 7 (.publisher 0)

theorem ring_owned_midPublication : ∃ s : State, s.transformed = [1] ∧ RingOwned 1 s := by
  obtain ⟨s, hrun, htr⟩ : ∃ s, exec (step 1) (init 0) midPublication = some s ∧
      s.transformed = [1] := exists_exec (by decide)
  exact ⟨s, htr, ring_owned 1 0 midPublication s hrun (by decide)⟩

/-- Between the stores of `read_epoch_` and `read_epoch_cur_` the cursor is one behind. -/
theorem midPublication_cursor :
    ¬ ∀ n isCreate es s, exec (step n) (init isCreate) es = some s →
      Along (step n) (CallOk n) (init isCreate) es →
      s.readEpochCur = (s.readEpoch + 1) % 16 := by
  intro h
  obtain ⟨s, hrun, hne⟩ : ∃ s, exec (step 1) (init 0) midPublication = some s ∧
      s.readEpochCur ≠ (s.readEpoch + 1) % 16 := exists_exec (by decide)
  exact hne (h 1 0 midPublication s hrun (by decide))

end AVBGraph.Registration
