import AVBGraph.Framework.Run
import AVBGraph.Memory.TwoLevel

namespace AVBGraph.Memory

open Framework

variable {α : Type*}

/-- `MEMORY_QUEUE_SIZE` and `fixedSize_queue`. -/
def queueShape : Shape := ⟨1024, 16, by decide, by decide⟩

namespace TwoLevelQueue

/-- `initVal` and `setIndrArray`, as `free` calls them on a new queue. -/
def init : Option (TwoLevel α) := TwoLevel.initVal.setIndrArray queueShape

def insert (q : TwoLevel α) (ga : α) : Option (TwoLevel α) := TwoLevel.insert queueShape q ga

/-- `IndrArray[curIndex]->pop()`. -/
def popCur (q : TwoLevel α) : Option (α × TwoLevel α) := do
  let b ← q.curBlock
  let (pt, b) ← b.pop
  let q ← q.setCurBlock b
  return (pt, q)

def get_block (q : TwoLevel α) : Option (α × TwoLevel α) :=
  if q.curIndex = 0 then popCur q
  else do
    let b ← q.curBlock
    if b.cur = -1 then popCur { q with curIndex := q.curIndex - 1 } else popCur q

def empty (q : TwoLevel α) : Option Bool :=
  if q.curIndex = 0 then q.curBlock.map (·.cur == -1) else some false

variable {q : TwoLevel α} {full : List (List α)} {top : List α}

theorem empty_eq (h : q.Holds queueShape full top) :
    empty q = some (full.flatten ++ top).isEmpty := by
  obtain ⟨b, hb, htop⟩ := h.curBlock
  cases full with
  | nil =>
    have hcur : (b.cur == -1) = top.isEmpty := by cases top <;> simp [htop.cur]
    simp [empty, h.curIndex, hb, hcur]
  | cons ys full =>
    have hys : ys ≠ [] := by
      rintro rfl
      simpa [queueShape] using h.filled [] List.mem_cons_self
    have hidx : q.curIndex ≠ 0 := by
      rw [h.curIndex]
      simp only [List.length_cons]
      omega
    simp [empty, hidx, hys]

theorem popCur_eq {p : α} (h : q.Holds queueShape full (top ++ [p])) :
    ∃ q', popCur q = some (p, q') ∧ q'.Holds queueShape full top ∧ q'.curSize = q.curSize := by
  obtain ⟨b, hb, htop⟩ := h.curBlock
  obtain ⟨b', hpop, hb'⟩ := htop.pop
  obtain ⟨q', hset, hq'⟩ := h.setCurBlock hb'
  exact ⟨q', by simp [popCur, hb, hpop, hset], hq'⟩

/-- Leaving the emptied current block makes the block below it the current one. -/
theorem holds_stepBack (h : q.Holds queueShape (full ++ [top]) []) :
    TwoLevel.Holds queueShape { q with curIndex := q.curIndex - 1 } full top := by
  obtain ⟨bs, b, rest, harr, hbs, -, hlen⟩ := h.cells
  obtain ⟨bs, b', rfl, hbs, hb'⟩ : ∃ bs₀ b', bs = bs₀ ++ [b'] ∧
      List.Forall₂ (Block.Holds queueShape.size) bs₀ full ∧ b'.Holds queueShape.size top := by
    have hrev := List.forall₂_reverse_iff.mpr hbs
    rw [List.reverse_append, List.reverse_singleton, List.singleton_append] at hrev
    obtain ⟨b', bs', hb', hbs', heq⟩ := List.forall₂_cons_right_iff.mp hrev
    refine ⟨bs'.reverse, b', ?_, List.forall₂_reverse_iff.mp (by simpa using hbs'), hb'⟩
    rw [← List.reverse_reverse bs, heq, List.reverse_cons]
  exact { cells := ⟨bs, b', some b :: rest, by simpa using harr, hbs, hb', by
            simp only [List.length_append, List.length_cons, List.length_nil] at hlen ⊢
            push_cast at hlen ⊢
            linarith⟩
          filled := fun ys hys => h.filled ys (List.mem_append_left _ hys)
          curIndex := by simp [h.curIndex]
          blockSize := h.blockSize
          curSize := h.curSize }

theorem get_block_top {p : α} (h : q.Holds queueShape full (top ++ [p])) :
    ∃ q', get_block q = some (p, q') ∧ q'.Holds queueShape full top ∧ q'.curSize = q.curSize := by
  obtain ⟨b, hb, htop⟩ := h.curBlock
  obtain ⟨q', hpop, hq'⟩ := popCur_eq h
  have hcur : b.cur ≠ -1 := by
    rw [htop.cur]
    simp only [List.length_append, List.length_singleton]
    omega
  exact ⟨q', by simp [get_block, hb, hcur, hpop], hq'⟩

theorem get_block_below {p : α} (h : q.Holds queueShape (full ++ [top ++ [p]]) []) :
    ∃ q', get_block q = some (p, q') ∧ q'.Holds queueShape full top ∧ q'.curSize = q.curSize := by
  obtain ⟨b, hb, htop⟩ := h.curBlock
  obtain ⟨q', hpop, hq'⟩ := popCur_eq (holds_stepBack h)
  have hidx : q.curIndex ≠ 0 := by
    rw [h.curIndex]
    simp only [List.length_append, List.length_singleton]
    omega
  have hcur : b.cur = -1 := by simpa using htop.cur
  exact ⟨q', by simp [get_block, hidx, hb, hcur, hpop], hq'⟩

end TwoLevelQueue

inductive Op (α : Type*)
  | insert (p : α)
  | get_block

/-- A caller of the queue with the pointers `get_block` has handed to it; it calls `get_block`
only if the queue is not `empty()`. -/
structure Client (α : Type*) where
  queue : TwoLevel α
  returned : List α

def Client.step (s : Client α) : Op α → Option (Client α)
  | .insert p => do
    let q ← TwoLevelQueue.insert s.queue p
    return { s with queue := q }
  | .get_block =>
    match TwoLevelQueue.empty s.queue with
    | some false => do
      let (p, q) ← TwoLevelQueue.get_block s.queue
      return ⟨q, s.returned ++ [p]⟩
    | _ => none

/-- The calls `es` on an initialised queue; `none` if one of them leaves an array or asks an
empty queue. -/
def clientRun (es : List (Op α)) : Option (Client α) := do
  let q ← TwoLevelQueue.init
  exec Client.step ⟨q, []⟩ es

def Client.view (s : Client α) : List α × Option Bool := (s.returned, TwoLevelQueue.empty s.queue)

/-- The purpose of the queue: what was inserted and not returned yet, newest first. -/
structure Stack (α : Type*) where
  held : List α
  returned : List α

def Stack.step (s : Stack α) : Op α → Option (Stack α)
  | .insert p => some { s with held := p :: s.held }
  | .get_block =>
    match s.held with
    | [] => none
    | p :: held => some ⟨held, s.returned ++ [p]⟩

def Stack.view (s : Stack α) : List α × Option Bool := (s.returned, some s.held.isEmpty)

/-- The insert finds a free cell in the first index array. -/
def Stack.Room (s : Stack α) : Op α → Prop
  | .insert _ => s.held.length < 16 * 1024
  | .get_block => True

instance (s : Stack α) : ∀ e, Decidable (s.Room e)
  | .insert _ => inferInstanceAs (Decidable (_ < _))
  | .get_block => isTrue trivial

/-- The queue before its first growth stands for the stack. -/
structure Client.Rel (s : Client α) (t : Stack α) : Prop where
  queue : ∃ full top, s.queue.Holds queueShape full top ∧ (full.flatten ++ top).reverse = t.held
  curSize : s.queue.curSize = 1
  returned : s.returned = t.returned

namespace Client.Rel

variable {s : Client α} {t : Stack α}

theorem length_eq {q : TwoLevel α} {full : List (List α)} {top : List α}
    (h : q.Holds queueShape full top) :
    (full.flatten ++ top).length = full.length * 1024 + top.length := by
  have hsum : (full.map List.length).sum = full.length * 1024 := by
    rw [List.sum_eq_card_nsmul _ 1024 fun n hn => ?_, List.length_map, smul_eq_mul]
    obtain ⟨ys, hys, rfl⟩ := List.mem_map.mp hn
    exact h.filled ys hys
  rw [List.length_append, List.length_flatten, hsum]

theorem view_eq (h : Rel s t) : s.view = t.view := by
  obtain ⟨full, top, hq, hheld⟩ := h.queue
  rw [Client.view, Stack.view, TwoLevelQueue.empty_eq hq, h.returned, ← hheld,
    List.isEmpty_reverse]

theorem insert (h : Rel s t) {p : α} (hroom : t.held.length < 16 * 1024) :
    Option.Rel Rel (s.step (.insert p)) (t.step (.insert p)) := by
  obtain ⟨full, top, hq, hheld⟩ := h.queue
  have hlen := length_eq hq
  rw [← List.length_reverse, hheld] at hlen
  suffices hsuff : ∃ q' full' top', TwoLevelQueue.insert s.queue p = some q' ∧
      q'.Holds queueShape full' top' ∧ full'.flatten ++ top' = full.flatten ++ top ++ [p] ∧
      q'.curSize = s.queue.curSize by
    obtain ⟨q', full', top', hins, hq', hcontent, hsize⟩ := hsuff
    have hstep : s.step (.insert p) = some { s with queue := q' } := by
      simp [Client.step, hins]
    rw [hstep]
    refine .some ⟨⟨full', top', hq', ?_⟩, hsize.trans h.curSize, h.returned⟩
    rw [hcontent, List.reverse_append, hheld]
    rfl
  have hle : top.length ≤ 1024 := by
    obtain ⟨b, -, hb⟩ := hq.curBlock
    exact hb.length_le
  rcases hle.lt_or_eq with hlt | heq
  · obtain ⟨q', hins, hq', hsize⟩ := hq.insert_room hlt p
    exact ⟨q', full, top ++ [p], hins, hq', (List.append_assoc ..).symm, hsize⟩
  · obtain ⟨q', hins, hq', hsize⟩ := hq.insert_next heq (by
      rw [h.curSize]
      simp only [queueShape]
      omega) p
    exact ⟨q', full ++ [top], [p], hins, hq', by simp, hsize⟩

theorem get_block (h : Rel s t) :
    Option.Rel Rel (s.step .get_block) (t.step .get_block) := by
  obtain ⟨full, top, hq, hheld⟩ := h.queue
  have hempty := TwoLevelQueue.empty_eq hq
  by_cases hnil : full.flatten ++ top = []
  · have hs : s.step .get_block = none := by simp [Client.step, hempty, hnil]
    have ht : t.step .get_block = none := by simp [Stack.step, ← hheld, hnil]
    rw [hs, ht]
    exact .none
  suffices hsuff : ∃ p q' full' top', TwoLevelQueue.get_block s.queue = some (p, q') ∧
      q'.Holds queueShape full' top' ∧ full.flatten ++ top = full'.flatten ++ top' ++ [p] ∧
      q'.curSize = s.queue.curSize by
    obtain ⟨p, q', full', top', hget, hq', hcontent, hsize⟩ := hsuff
    have hs : s.step .get_block = some ⟨q', s.returned ++ [p]⟩ := by
      have hne : (full.flatten ++ top).isEmpty = false := by
        rw [← Bool.not_eq_true, List.isEmpty_iff]
        exact hnil
      simp [Client.step, hempty, hne, hget]
    have ht : t.step .get_block =
        some ⟨(full'.flatten ++ top').reverse, t.returned ++ [p]⟩ := by
      simp [Stack.step, ← hheld, hcontent]
    rw [hs, ht]
    exact .some ⟨⟨full', top', hq', rfl⟩, hsize.trans h.curSize, by rw [h.returned]⟩
  rcases List.eq_nil_or_concat top with rfl | ⟨ys, p, rfl⟩
  · obtain ⟨full', zs, rfl⟩ : ∃ full' zs, full = full' ++ [zs] := by
      rcases List.eq_nil_or_concat full with rfl | ⟨full', zs, rfl⟩
      · simp at hnil
      · exact ⟨full', zs, List.concat_eq_append⟩
    obtain ⟨ys, p, rfl⟩ : ∃ ys p, zs = ys ++ [p] := by
      have hzs := hq.filled zs (by simp)
      rcases List.eq_nil_or_concat zs with rfl | ⟨ys, p, rfl⟩
      · simp [queueShape] at hzs
      · exact ⟨ys, p, List.concat_eq_append⟩
    obtain ⟨q', hget, hq', hsize⟩ := TwoLevelQueue.get_block_below hq
    exact ⟨p, q', full', ys, hget, hq', by simp, hsize⟩
  · rw [List.concat_eq_append] at hq ⊢
    obtain ⟨q', hget, hq', hsize⟩ := TwoLevelQueue.get_block_top hq
    exact ⟨p, q', full, ys, hget, hq', by simp, hsize⟩

theorem init : ∃ q : TwoLevel α, TwoLevelQueue.init = some q ∧ Rel ⟨q, []⟩ ⟨[], []⟩ := by
  obtain ⟨q, hinit, hq, hsize⟩ := TwoLevel.holds_init (α := α) queueShape
  exact ⟨q, hinit, ⟨[], [], hq, rfl⟩, hsize, rfl⟩

theorem run (h : Rel s t) {es : List (Op α)} (hok : Along Stack.step Stack.Room t es) :
    Option.Rel Rel (exec Client.step s es) (exec Stack.step t es) := by
  refine exec_rel (fun s t e hst he => ?_) h hok
  cases e with
  | insert p => exact hst.insert he
  | get_block => exact hst.get_block

end Client.Rel

/-- While no insert finds the 16 · 1024 cells of the first index array in use, the queue hands
out the newest pointer it holds, says truly whether one is left and stays inside its arrays. -/
theorem TwoLevelQueue.refines_stack {es : List (Op α)}
    (hroom : Along Stack.step Stack.Room ⟨[], []⟩ es) :
    (clientRun es).map Client.view = (exec Stack.step ⟨[], []⟩ es).map Stack.view := by
  obtain ⟨q, hinit, hq⟩ := Client.Rel.init (α := α)
  have hrun := hq.run hroom
  have hclient : clientRun es = exec Client.step ⟨q, []⟩ es := by simp [clientRun, hinit]
  rw [hclient]
  revert hrun
  generalize exec Client.step ⟨q, []⟩ es = o
  generalize exec Stack.step ⟨[], []⟩ es = o'
  rintro (hst | -)
  · exact congrArg some hst.view_eq
  · rfl

theorem TwoLevelQueue.refines_stack_four :
    (clientRun [.insert 1, .insert 2, .get_block, .get_block]).map Client.view =
      some ([2, 1], some true) :=
  refines_stack (by decide)

theorem exec_stack_insert (t : Stack α) (ps : List α) :
    exec Stack.step t (ps.map .insert) = some { t with held := ps.reverse ++ t.held } := by
  induction ps generalizing t with
  | nil => rfl
  | cons p ps ih => simp [exec, Stack.step, ih]

theorem along_room_insert (t : Stack α) {ps : List α}
    (h : t.held.length + ps.length ≤ 16 * 1024) :
    Along Stack.step Stack.Room t (ps.map .insert) := by
  induction ps generalizing t with
  | nil => trivial
  | cons p ps ih =>
    rw [List.length_cons] at h
    refine ⟨by simp only [Stack.Room]; omega, ?_⟩
    rintro _ ⟨⟩
    exact ih _ (by simp only [List.length_cons]; omega)

/-- The insert that finds every cell in use drops all blocks but the first one. -/
theorem TwoLevelQueue.insert_filled {s : Client α} {t : Stack α} (h : s.Rel t)
    (hlen : t.held.length = 16 * 1024) (p : α) :
    ∃ q, TwoLevelQueue.insert s.queue p = some q ∧
      q.Holds queueShape [t.held.reverse.take 1024] [p] := by
  obtain ⟨full, top, hq, hheld⟩ := h.queue
  have hcontent : full.flatten ++ top = t.held.reverse := by rw [← hheld, List.reverse_reverse]
  have hcount := Client.Rel.length_eq hq
  rw [← List.length_reverse, hheld, hlen] at hcount
  obtain ⟨b, -, hb⟩ := hq.curBlock
  have hle : top.length ≤ 1024 := hb.length_le
  have hslots : full.length + 1 ≤ 16 := by
    obtain ⟨bs, b, rest, -, -, -, hcells⟩ := hq.cells
    rw [h.curSize] at hcells
    simp only [queueShape] at hcells
    omega
  obtain ⟨q, hins, hq', -⟩ := hq.insert_grow (by simp only [queueShape]; omega)
    (by rw [h.curSize]; simp only [queueShape]; omega) p
  refine ⟨q, hins, ?_⟩
  obtain ⟨ys, full, rfl⟩ : ∃ ys ys', full = ys :: ys' :=
    List.exists_cons_of_length_pos (by omega)
  have hys : ys.length = 1024 := hq.filled ys List.mem_cons_self
  have htake : t.held.reverse.take 1024 = ys := by
    rw [← hcontent, List.flatten_cons, List.append_assoc, ← hys, List.take_left]
  rw [htake]
  simpa [h.curSize] using hq'

/-- After the growth the second pointer handed out is the one pushed last into the first block. -/
theorem TwoLevelQueue.returned_after_growth {ps : List α} (hlen : ps.length = 16 * 1024) (p : α)
    {x : α} (hx : ps[1023]? = some x) :
    (clientRun (ps.map .insert ++ [.insert p, .get_block, .get_block])).map (·.returned) =
      some [p, x] := by
  obtain ⟨q, hinit, hq⟩ := Client.Rel.init (α := α)
  have hroom : Along Stack.step Stack.Room ⟨[], []⟩ (ps.map .insert) :=
    along_room_insert ⟨[], []⟩ (by simp [hlen])
  have hrun := hq.run hroom
  rw [exec_stack_insert] at hrun
  obtain ⟨s, hs, hrel⟩ : ∃ s, exec Client.step ⟨q, []⟩ (ps.map .insert) = some s ∧
      s.Rel ⟨ps.reverse ++ [], []⟩ := by
    revert hrun
    generalize exec Client.step ⟨q, []⟩ (ps.map .insert) = o
    rintro (hst | -)
    exact ⟨_, rfl, hst⟩
  obtain ⟨q₁, hins, hq₁⟩ := insert_filled hrel (by simpa using hlen) p
  have hkept : (ps.reverse ++ []).reverse.take 1024 = ps.take 1023 ++ [x] := by
    rw [List.append_nil, List.reverse_reverse, List.take_add_one, hx, Option.toList_some]
  rw [hkept] at hq₁
  have hsplit : q₁.Holds queueShape [ps.take 1023 ++ [x]] ([] ++ [p]) := hq₁
  obtain ⟨q₂, hget, hq₂, -⟩ := get_block_top hsplit
  have hsplit' : q₂.Holds queueShape ([] ++ [ps.take 1023 ++ [x]]) [] := hq₂
  obtain ⟨q₃, hget', -⟩ := get_block_below hsplit'
  have he₁ : empty q₁ = some false := (empty_eq hq₁).trans (by simp)
  have he₂ : empty q₂ = some false := (empty_eq hq₂).trans (by simp)
  have hreturned : s.returned = [] := hrel.returned
  simp [clientRun, hinit, exec_append, hs, exec, Client.step, hins, he₁, he₂, hget, hget',
    hreturned]

theorem stack_returned (ps : List α) (x p : α) :
    (exec Stack.step ⟨[], []⟩ ((ps ++ [x]).map .insert ++ [.insert p, .get_block, .get_block])).map
      (·.returned) = some [p, x] := by
  rw [exec_append, exec_stack_insert, List.reverse_append]
  rfl

/-- 16385 inserts, then two calls of `get_block`: the second one does not return pointer 16383. -/
theorem TwoLevelQueue.refines_stack_loses :
    (clientRun ((List.range 16385).map .insert ++ [.get_block, .get_block])).map (·.returned) =
        some [16384, 1023] ∧
      (exec Stack.step ⟨[], []⟩ ((List.range 16385).map .insert ++ [.get_block, .get_block])).map
        (·.returned) = some [16384, 16383] := by
  have hsplit : (List.range 16385).map Op.insert ++ [.get_block, .get_block] =
      (List.range 16384).map .insert ++ [.insert 16384, .get_block, .get_block] := by
    rw [List.range_succ, List.map_append, List.append_assoc]
    rfl
  rw [hsplit]
  refine ⟨returned_after_growth List.length_range 16384 (List.getElem?_range (by decide)), ?_⟩
  rw [List.range_succ (n := 16383)]
  exact stack_returned (List.range 16383) 16383 16384

end AVBGraph.Memory
