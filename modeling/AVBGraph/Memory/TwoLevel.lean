import Mathlib.Data.List.Basic
import Mathlib.Data.List.Forall2
import Mathlib.Data.List.Infix
import Mathlib.Tactic

namespace AVBGraph.Memory

variable {α : Type*}

/-- A read of an array cell; `none` outside of the array and for a cell never written. -/
def load (cells : List (Option α)) (i : Int) : Option α :=
  if 0 ≤ i then cells[i.toNat]?.join else none

def store (cells : List (Option α)) (i : Int) (a : α) : Option (List (Option α)) :=
  if 0 ≤ i ∧ i < cells.length then some (cells.set i.toNat (some a)) else none

theorem load_eq {cells : List (Option α)} {i : Int} {n : Nat} {a : α} (hi : i = n)
    (h : cells[n]? = some (some a)) : load cells i = some a := by
  subst hi
  simp [load, h]

theorem load_append_cons (l r : List (Option α)) (a : α) {i : Int} (hi : i = l.length) :
    load (l ++ some a :: r) i = some a :=
  load_eq hi (by simp)

theorem store_append_cons (l r : List (Option α)) (x : Option α) (a : α) {i : Int}
    (hi : i = l.length) : store (l ++ x :: r) i a = some (l ++ some a :: r) := by
  subst hi
  have hlt : (l.length : Int) < (l ++ x :: r).length := by
    simp only [List.length_append, List.length_cons]
    omega
  simp only [store, Int.natCast_nonneg, true_and, hlt, if_true, Int.toNat_natCast, Option.some.injEq]
  rw [List.set_append_right _ _ (le_refl _), Nat.sub_self, List.set_cons_zero]

/-- The block of one array: `FixedSizeVector` and `FixedSizeBlock`, `cur` the last cell in use. -/
structure Block (α : Type*) where
  blockArr : List (Option α)
  cur : Int
deriving DecidableEq

namespace Block

/-- `initVal` and the array the block is given right after it. -/
def initVal (size : Nat) : Block α := ⟨List.replicate size none, -1⟩

def push (b : Block α) (val : α) : Option (Block α) := do
  let blockArr ← store b.blockArr (b.cur + 1) val
  return ⟨blockArr, b.cur + 1⟩

def pop (b : Block α) : Option (α × Block α) := do
  let pt ← load b.blockArr b.cur
  return (pt, { b with cur := b.cur - 1 })

def IscurIndexFull (b : Block α) (size : Nat) : Bool := b.cur == size - 1

/-- The block holds the values `ys`, the newest one last; the cells behind them are arbitrary. -/
structure Holds (size : Nat) (b : Block α) (ys : List α) : Prop where
  cells : ∃ rest, b.blockArr = ys.map some ++ rest ∧ ys.length + rest.length = size
  cur : b.cur = (ys.length : Int) - 1

variable {size : Nat} {b : Block α} {ys : List α}

theorem holds_initVal (size : Nat) : Holds size (initVal size : Block α) [] :=
  ⟨⟨List.replicate size none, rfl, by simp⟩, rfl⟩

theorem Holds.length_le (h : Holds size b ys) : ys.length ≤ size := by
  obtain ⟨rest, -, hlen⟩ := h.cells
  omega

theorem Holds.full_iff (h : Holds size b ys) : b.IscurIndexFull size = true ↔ ys.length = size := by
  rw [IscurIndexFull, beq_iff_eq, h.cur]
  omega

theorem Holds.push (h : Holds size b ys) (hlt : ys.length < size) (y : α) :
    ∃ b', b.push y = some b' ∧ Holds size b' (ys ++ [y]) := by
  obtain ⟨rest, hcells, hlen⟩ := h.cells
  obtain ⟨x, rest, rfl⟩ : ∃ x xs, rest = x :: xs :=
    List.exists_cons_of_length_pos (by omega)
  have hstore := store_append_cons (ys.map some) rest x y (i := b.cur + 1) (by simp [h.cur])
  refine ⟨⟨ys.map some ++ some y :: rest, b.cur + 1⟩, by simp [Block.push, hcells, hstore], ?_, ?_⟩
  · refine ⟨rest, by simp, ?_⟩
    simp only [List.length_append, List.length_cons, List.length_nil] at hlen ⊢
    omega
  · simp [h.cur]

theorem Holds.last {y : α} (h : Holds size b (ys ++ [y])) : load b.blockArr b.cur = some y := by
  obtain ⟨rest, hcells, -⟩ := h.cells
  rw [hcells, List.map_append, List.map_singleton, List.append_assoc, List.singleton_append]
  exact load_append_cons _ _ _ (by simp [h.cur])

theorem Holds.pop {y : α} (h : Holds size b (ys ++ [y])) :
    ∃ b', b.pop = some (y, b') ∧ Holds size b' ys := by
  refine ⟨{ b with cur := b.cur - 1 }, by simp [Block.pop, h.last], ?_, by simp [h.cur]⟩
  obtain ⟨rest, hcells, hlen⟩ := h.cells
  refine ⟨some y :: rest, by simpa using hcells, ?_⟩
  simp only [List.length_append, List.length_cons, List.length_nil] at hlen ⊢
  omega

theorem Holds.setLast {y : α} (h : Holds size b (ys ++ [y])) (y' : α) :
    ∃ blockArr, store b.blockArr b.cur y' = some blockArr ∧
      Holds size { b with blockArr } (ys ++ [y']) := by
  obtain ⟨rest, hcells, hlen⟩ := h.cells
  have hcur : b.cur = (ys.map some).length := by simp [h.cur]
  refine ⟨ys.map some ++ some y' :: rest, ?_, ⟨rest, by simp, by simpa using hlen⟩,
    by simp [h.cur]⟩
  rw [hcells, List.map_append, List.map_singleton, List.append_assoc, List.singleton_append,
    store_append_cons _ _ _ _ hcur]

end Block

/-- The constants of a two-level array: cells of a block, blocks of the first index array. -/
structure Shape where
  size : Nat
  fixed : Nat
  size_pos : 0 < size
  fixed_pos : 0 < fixed

/-- `TwoLevelVector` and `TwoLevelQueue`; the index array is `NULL` before `setIndrArray`. -/
structure TwoLevel (α : Type*) where
  IndrArray : Option (List (Option (Block α)))
  curIndex : Int
  curSize : Int
  blockSize : Int
deriving DecidableEq

namespace TwoLevel

def initVal : TwoLevel α := ⟨none, -1, 1, 0⟩

variable (sh : Shape) (q : TwoLevel α)

/-- `IndrArray[curIndex]`. -/
def curBlock : Option (Block α) := do
  let arr ← q.IndrArray
  load arr q.curIndex

def setCurBlock (b : Block α) : Option (TwoLevel α) := do
  let arr ← q.IndrArray
  let arr ← store arr q.curIndex b
  return { q with IndrArray := some arr }

def addBlock : Option (TwoLevel α) := do
  let arr ← q.IndrArray
  let arr ← store arr (q.curIndex + 1) (Block.initVal sh.size)
  return { q with IndrArray := some arr, curIndex := q.curIndex + 1 }

/-- `IndrArray[curIndex]->push(ga)`. -/
def pushCur (ga : α) : Option (TwoLevel α) := do
  let b ← q.curBlock
  let b ← b.push ga
  q.setCurBlock b

def setIndrArray : Option (TwoLevel α) :=
  match q.IndrArray with
  | none =>
    addBlock sh { q with
      IndrArray := some (List.replicate (q.curSize * sh.fixed).toNat none)
      blockSize := sh.fixed }
  | some arr =>
    let bprev := (q.curSize * sh.fixed).toNat
    let b_len_new := 2 * q.curSize
    if bprev ≤ arr.length then
      some {
        IndrArray := some (arr.take bprev ++
          List.replicate ((b_len_new * sh.fixed).toNat - bprev) none)
        -- the last slot of the old index array only if that array has `curSize` slots
        curIndex := q.curSize - 1
        blockSize := b_len_new * sh.fixed
        curSize := b_len_new }
    else none

def insert (ga : α) : Option (TwoLevel α) := do
  let b ← q.curBlock
  if q.curIndex = q.blockSize - 1 then
    if b.IscurIndexFull sh.size then
      let q ← q.setIndrArray sh
      let q ← q.addBlock sh
      q.pushCur ga
    else q.pushCur ga
  else if b.IscurIndexFull sh.size then
    let q ← q.addBlock sh
    q.pushCur ga
  else q.pushCur ga

/-- The blocks below the current one hold the lists `full`, each of them filled, and the current
one holds `top`. Slots behind the current one are arbitrary. -/
structure Holds (full : List (List α)) (top : List α) : Prop where
  cells : ∃ bs b rest, q.IndrArray = some (bs.map some ++ some b :: rest) ∧
    List.Forall₂ (Block.Holds sh.size) bs full ∧ b.Holds sh.size top ∧
    (full.length + 1 + rest.length : Int) = q.curSize * sh.fixed
  filled : ∀ ys ∈ full, ys.length = sh.size
  curIndex : q.curIndex = full.length
  blockSize : q.blockSize = q.curSize * sh.fixed
  curSize : 0 < q.curSize

variable {sh q} {full : List (List α)} {top : List α}

theorem Holds.curBlock (h : Holds sh q full top) :
    ∃ b, q.curBlock = some b ∧ b.Holds sh.size top := by
  obtain ⟨bs, b, rest, harr, hbs, hb, -⟩ := h.cells
  have hcur : q.curIndex = (bs.map some).length := by simp [h.curIndex, hbs.length_eq]
  exact ⟨b, by simp [TwoLevel.curBlock, harr, load_append_cons _ _ _ hcur], hb⟩

theorem Holds.setCurBlock (h : Holds sh q full top) {b : Block α} {ys : List α}
    (hb : b.Holds sh.size ys) :
    ∃ q', q.setCurBlock b = some q' ∧ Holds sh q' full ys ∧ q'.curSize = q.curSize := by
  obtain ⟨bs, b₀, rest, harr, hbs, -, hlen⟩ := h.cells
  have hcur : q.curIndex = (bs.map some).length := by simp [h.curIndex, hbs.length_eq]
  refine ⟨{ q with IndrArray := some (bs.map some ++ some b :: rest) },
    by simp [TwoLevel.setCurBlock, harr, store_append_cons _ _ _ _ hcur], ?_, rfl⟩
  exact { cells := ⟨bs, b, rest, rfl, hbs, hb, hlen⟩
          filled := h.filled
          curIndex := h.curIndex
          blockSize := h.blockSize
          curSize := h.curSize }

theorem Holds.pushCur (h : Holds sh q full top) (hlt : top.length < sh.size) (ga : α) :
    ∃ q', q.pushCur ga = some q' ∧ Holds sh q' full (top ++ [ga]) ∧ q'.curSize = q.curSize := by
  obtain ⟨b, hb, htop⟩ := h.curBlock
  obtain ⟨b', hpush, hb'⟩ := htop.push hlt ga
  obtain ⟨q', hset, hq'⟩ := h.setCurBlock hb'
  exact ⟨q', by simp [TwoLevel.pushCur, hb, hpush, hset], hq'⟩

/-- A new block in the slot behind the blocks `bs`, whatever that slot held. -/
theorem holds_addBlock {bs : List (Block α)} {x : Option (Block α)} {rest : List (Option (Block α))}
    (harr : q.IndrArray = some (bs.map some ++ x :: rest))
    (hbs : List.Forall₂ (Block.Holds sh.size) bs full)
    (hlen : (full.length + 1 + rest.length : Int) = q.curSize * sh.fixed)
    (hfilled : ∀ ys ∈ full, ys.length = sh.size) (hcur : q.curIndex + 1 = full.length)
    (hblock : q.blockSize = q.curSize * sh.fixed) (hsize : 0 < q.curSize) :
    ∃ q', q.addBlock sh = some q' ∧ Holds sh q' full [] ∧ q'.curSize = q.curSize := by
  have hidx : q.curIndex + 1 = (bs.map some).length := by simp [hcur, hbs.length_eq]
  refine ⟨{ q with
      IndrArray := some (bs.map some ++ some (Block.initVal sh.size) :: rest)
      curIndex := q.curIndex + 1 },
    by simp [addBlock, harr, store_append_cons _ _ _ _ hidx], ?_, rfl⟩
  exact { cells := ⟨bs, _, rest, rfl, hbs, Block.holds_initVal _, hlen⟩
          filled := hfilled
          curIndex := hcur
          blockSize := hblock
          curSize := hsize }

theorem holds_init (sh : Shape) :
    ∃ q : TwoLevel α, initVal.setIndrArray sh = some q ∧ Holds sh q [] [] ∧ q.curSize = 1 := by
  obtain ⟨n, hn⟩ : ∃ n, sh.fixed = n + 1 := ⟨sh.fixed - 1, by have := sh.fixed_pos; omega⟩
  have harr : (⟨some (List.replicate sh.fixed none), -1, 1, sh.fixed⟩ : TwoLevel α).IndrArray =
      some (([] : List (Block α)).map some ++ none :: List.replicate n none) := by
    simp [hn, List.replicate_succ]
  refine holds_addBlock harr .nil ?_ (by simp) (by simp) (by simp) (by simp) |>.imp
    fun q hq => ⟨?_, hq.2⟩
  · simp [hn]; omega
  · simpa [setIndrArray, initVal] using hq.1

theorem Holds.insert_room (h : Holds sh q full top) (hlt : top.length < sh.size) (ga : α) :
    ∃ q', q.insert sh ga = some q' ∧ Holds sh q' full (top ++ [ga]) ∧ q'.curSize = q.curSize := by
  obtain ⟨b, hb, htop⟩ := h.curBlock
  obtain ⟨q', hpush, hq'⟩ := h.pushCur hlt ga
  have hfull : b.IscurIndexFull sh.size = false := by
    rw [← Bool.not_eq_true, htop.full_iff]
    omega
  exact ⟨q', by simp [TwoLevel.insert, hb, hfull, hpush], hq'⟩

theorem Holds.insert_next (h : Holds sh q full top) (htop : top.length = sh.size)
    (hlt : (full.length + 1 : Int) < q.curSize * sh.fixed) (ga : α) :
    ∃ q', q.insert sh ga = some q' ∧ Holds sh q' (full ++ [top]) [ga] ∧ q'.curSize = q.curSize := by
  obtain ⟨b', hb', hcur⟩ := h.curBlock
  obtain ⟨bs, b, rest, harr, hbs, hb, hlen⟩ := h.cells
  obtain ⟨x, rest, rfl⟩ : ∃ x xs, rest = x :: xs := List.exists_cons_of_length_pos (by omega)
  have harr' : q.IndrArray = some ((bs ++ [b]).map some ++ x :: rest) := by simpa using harr
  obtain ⟨q₁, hadd, hq₁, hs₁⟩ := holds_addBlock harr' (List.rel_append hbs (.cons hb .nil))
    (by simp only [List.length_append, List.length_cons, List.length_nil] at hlen ⊢; omega)
    (by simpa [or_imp, forall_and, htop] using h.filled) (by simp [h.curIndex])
    h.blockSize h.curSize
  obtain ⟨q', hpush, hq', hs'⟩ := hq₁.pushCur (by simpa using sh.size_pos) ga
  have hne : q.curIndex ≠ q.blockSize - 1 := by
    rw [h.curIndex, h.blockSize]
    omega
  refine ⟨q', ?_, hq', hs'.trans hs₁⟩
  simp [TwoLevel.insert, hb', hcur.full_iff.mpr htop, hne, hadd, hpush]

/-- Growth keeps as many blocks as the old size counter says, not as many as there are. -/
theorem Holds.insert_grow (h : Holds sh q full top) (htop : top.length = sh.size)
    (heq : (full.length + 1 : Int) = q.curSize * sh.fixed) (ga : α) :
    ∃ q', q.insert sh ga = some q' ∧
      Holds sh q' ((full ++ [top]).take q.curSize.toNat) [ga] ∧ q'.curSize = 2 * q.curSize := by
  obtain ⟨b', hb', hcur⟩ := h.curBlock
  obtain ⟨bs, b, rest, harr, hbs, hb, hlen⟩ := h.cells
  obtain rfl : rest = [] := List.eq_nil_of_length_eq_zero (by omega)
  obtain ⟨n, hn⟩ : ∃ n : Nat, q.curSize = n := ⟨q.curSize.toNat, by have := h.curSize; omega⟩
  have hpos : 0 < n := by have := h.curSize; omega
  have hcount : full.length + 1 = n * sh.fixed := by rw [hn] at heq; exact_mod_cast heq
  have hle : n ≤ full.length + 1 := hcount ▸ Nat.le_mul_of_pos_right n sh.fixed_pos
  have hlenbs : bs.length = full.length := hbs.length_eq
  -- the array behind the slots that the new current index leaves in use
  obtain ⟨x, rest, hrest⟩ : ∃ x xs, ((bs ++ [b]).map some).drop n ++
      List.replicate (n * sh.fixed) none = x :: xs :=
    List.exists_cons_of_length_pos (by
      simp only [List.length_append, List.length_drop, List.length_map, List.length_replicate,
        List.length_singleton]
      omega)
  set q₀ : TwoLevel α :=
    { IndrArray := some ((bs ++ [b]).map some ++ List.replicate (n * sh.fixed) none)
      curIndex := n - 1, blockSize := 2 * n * sh.fixed, curSize := 2 * n } with hq₀
  have harr₀ : q₀.IndrArray = some (((bs ++ [b]).take n).map some ++ x :: rest) := by
    rw [← hrest, List.map_take, ← List.append_assoc, List.take_append_drop]
  have hset : q.setIndrArray sh = some q₀ := by
    have htwo : (2 * (n : Int) * sh.fixed).toNat = n * sh.fixed + n * sh.fixed := by
      rw [mul_assoc, two_mul]
      exact_mod_cast Int.toNat_natCast (n * sh.fixed + n * sh.fixed)
    have hone : ((n : Int) * sh.fixed).toNat = n * sh.fixed := by
      exact_mod_cast Int.toNat_natCast (n * sh.fixed)
    have hl : n * sh.fixed = (bs.map some ++ [some b]).length := by
      simp only [List.length_append, List.length_map, List.length_singleton]
      omega
    have htake : (bs.map some ++ [some b]).take (n * sh.fixed) = bs.map some ++ [some b] := by
      rw [hl, List.take_length]
    simp only [setIndrArray, harr, hn, htwo, hone, hl.le, if_true, htake, Nat.add_sub_cancel,
      hq₀, List.map_append, List.map_singleton]
  obtain ⟨q₁, hadd, hq₁, hs₁⟩ := holds_addBlock harr₀
    (List.forall₂_take n (List.rel_append hbs (.cons hb .nil)))
    (by
      have hl := congrArg List.length hrest
      simp only [List.length_append, List.length_drop, List.length_map, List.length_replicate,
        List.length_cons, List.length_nil] at hl
      have htake : ((full ++ [top]).take n).length = n := by simp; omega
      rw [htake, hq₀]
      push_cast
      have : rest.length + 1 + n = 2 * (n * sh.fixed) := by omega
      have : ((rest.length + 1 + n : Nat) : Int) = ((2 * (n * sh.fixed) : Nat) : Int) := by rw [this]
      push_cast at this
      linarith)
    (fun ys hys => by
      have := List.mem_of_mem_take hys
      rcases List.mem_append.mp this with hys | hys
      · exact h.filled ys hys
      · rw [List.mem_singleton.mp hys, htop])
    (by simp [hq₀]; omega) rfl (by simpa [hq₀] using hpos)
  obtain ⟨q', hpush, hq', hs'⟩ := hq₁.pushCur (by simpa using sh.size_pos) ga
  have hat : q.curIndex = q.blockSize - 1 := by
    rw [h.curIndex, h.blockSize, ← heq]
    omega
  refine ⟨q', ?_, by simpa [hn] using hq', by rw [hs', hs₁, hn]⟩
  simp [TwoLevel.insert, hb', hcur.full_iff.mpr htop, hat, hset, hadd, hpush]

end TwoLevel

end AVBGraph.Memory
