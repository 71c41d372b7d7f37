import AVBGraph.Framework.StdSort
import AVBGraph.Vertex.Edges

namespace AVBGraph

open Framework

/-- What a merge reads besides the vertex: the contents of its allocation and
g_oldest_epoch, which is below TMPVB_MASK. -/
structure Env where
  malloc : Nat → EdgeWithIndex
  oldest : Nat
  oldest_lt : oldest < 2 ^ 31

namespace VertexEdges

/-- `while (capacity < num) capacity <<= 1`. -/
def growCapacity (num : Nat) : Nat → Nat → Nat
  | 0, c => c
  | fuel + 1, c => if c < num then growCapacity num fuel (2 * c) else c

structure Compaction where
  y : Nat
  start : Nat → EdgeWithIndex
  m : Nat → Bool
  num : Nat

/-- A deleted entry that no reader needs any more. -/
def dropped (oldest : Nat) (x : EdgeWithIndex) : Bool := isDelete x.e ∧ x.block < oldest

/-- One round of the loop that drops old deleted entries in place. -/
def compactStep (oldest capacity : Nat) (c : Compaction) (i : Nat) : Compaction :=
  if dropped oldest (c.start i) then
    { c with m := Function.update c.m (c.start i).key false, num := c.num - 1 }
  else
    let start := Function.update c.start (c.y + capacity) (c.start (i + capacity))
    { c with start := Function.update start c.y (start i), y := c.y + 1 }

/-- The memory of the merge: `fresh` is the new allocation, without one the merge writes to
`start` itself. -/
structure Filling where
  start : Nat → EdgeWithIndex
  fresh : Option (Nat → EdgeWithIndex)

namespace Filling

def out (f : Filling) : Nat → EdgeWithIndex := f.fresh.getD f.start

def write (f : Filling) (i : Nat) (x : EdgeWithIndex) : Filling :=
  match f.fresh with
  | some g => { f with fresh := some (Function.update g i x) }
  | none => { f with start := Function.update f.start i x }

end Filling

/-- The backward merge. `x` and `y` count the items still to be placed, so that the write
position nw is always x + y - 1; the result counts the entries of `start` left over. -/
def fill (tmpItem : Nat → EdgeWithIndex) (indices : List Nat) (oldCapacity capacity : Nat) :
    Nat → Nat → Filling → Filling × Nat
  | 0, y, f => (f, y)
  | x + 1, 0, f =>
    let t := indices.getD x 0
    let f := (f.write (x + capacity) (tmpItem (t + tmpNum))).write x (tmpItem t)
    fill tmpItem indices oldCapacity capacity x 0 f
  | x + 1, y + 1, f =>
    let t := indices.getD x 0
    let nw := x + 1 + y
    if (f.start y).key < (tmpItem t).key then
      let f := (f.write (nw + capacity) (tmpItem (t + tmpNum))).write nw (tmpItem t)
      fill tmpItem indices oldCapacity capacity x (y + 1) f
    else
      let f := f.write (nw + capacity) (f.start (y + oldCapacity))
      let f := f.write nw (f.start y)
      fill tmpItem indices oldCapacity capacity (x + 1) y f
termination_by x y => x + y

/-- The copy of the left over entries into the new allocation. -/
def copyRest (oldCapacity capacity y : Nat) (f : Filling) : Nat → EdgeWithIndex :=
  match f.fresh with
  | some g => fun i =>
    if i < y then f.start i
    else if capacity ≤ i ∧ i - capacity < y then f.start (i - capacity + oldCapacity)
    else g i
  | none => f.start

def newCapacity (s : VertexEdges) : Nat :=
  if s.capacity < s.num then
    if s.capacity = 0 then s.num else growCapacity s.num s.num s.capacity
  else s.capacity

/-- The loop that drops old deleted entries in place. -/
def compact (oldest : Nat) (s : VertexEdges) : Compaction :=
  (List.range s.edgesAndVersions).foldl (compactStep oldest s.capacity) ⟨0, s.start, s.m, s.num⟩

def bufferOrder (S : StdSort) (s : VertexEdges) : List Nat :=
  S.sort tmpNum fun i j => (s.tmpItem i).key < (s.tmpItem j).key

/-- merge_tmpev_with_eb: drops old deleted entries and moves the whole buffer into the
primary adjacency. -/
def mergeTmpevWithEb (S : StdSort) (env : Env) (s : VertexEdges) : VertexEdges :=
  let c := compact env.oldest s
  let fresh := if s.capacity < s.num then some env.malloc else none
  let r := fill s.tmpItem (bufferOrder S s) s.capacity (newCapacity s) tmpNum c.y ⟨c.start, fresh⟩
  { s with
    mergeTimes := s.mergeTimes + 1
    capacity := newCapacity s
    m := c.m
    num := c.num
    edgesAndVersions := c.y + tmpNum
    start := copyRest s.capacity (newCapacity s) r.2 r.1
    tmpEv := 0 }

/-- The first n items of a memory whose property halves begin at `capacity`. -/
def slice (f : Nat → EdgeWithIndex) (capacity n : Nat) : List Item :=
  (List.range n).map fun i => (f i, f (i + capacity))

theorem slice_succ (f : Nat → EdgeWithIndex) (capacity n : Nat) :
    slice f capacity (n + 1) = slice f capacity n ++ [(f n, f (n + capacity))] := by
  simp [slice, List.range_succ]

theorem slice_congr {f g : Nat → EdgeWithIndex} {capacity cap' n : Nat}
    (he : ∀ i < n, f i = g i) (hp : ∀ i < n, f (i + capacity) = g (i + cap')) :
    slice f capacity n = slice g cap' n := by
  refine List.map_congr_left fun i hi => ?_
  rw [he i (List.mem_range.mp hi), hp i (List.mem_range.mp hi)]

theorem le_growCapacity (num : Nat) : ∀ (fuel c : Nat), 0 < c → num ≤ c + fuel →
    num ≤ growCapacity num fuel c := by
  intro fuel
  induction fuel with
  | zero => intro c _ h; exact h
  | succ n ih =>
    intro c hc h
    rw [growCapacity]
    split_ifs with hlt
    · exact ih _ (by omega) (by omega)
    · omega

theorem slice_update {f : Nat → EdgeWithIndex} {capacity n i : Nat} {x : EdgeWithIndex}
    (hi : n ≤ i ∧ i < capacity ∨ capacity + n ≤ i) (_ : n ≤ capacity) :
    slice (Function.update f i x) capacity n = slice f capacity n := by
  refine slice_congr (fun j hj => ?_) fun j hj => ?_
  · exact Function.update_of_ne (by omega) _ _
  · exact Function.update_of_ne (by omega) _ _

/-- The state of the compaction after k entries. -/
structure Compacted (oldest capacity : Nat) (s : VertexEdges) (k : Nat) (c : Compaction) : Prop where
  y_le : c.y ≤ k
  rest : ∀ i, k ≤ i → i < capacity →
    c.start i = s.start i ∧ c.start (i + capacity) = s.start (i + capacity)
  kept : slice c.start capacity c.y =
    (slice s.start capacity k).filter fun x => !dropped oldest x.1
  num_eq : c.num + k = s.num + c.y
  m_iff : ∀ d, c.m d = true ↔
    s.m d = true ∧ ∀ i < k, dropped oldest (s.start i) = true → (s.start i).key ≠ d

theorem compacted {oldest : Nat} {s : VertexEdges} (h : Rep s) :
    ∀ k ≤ s.edgesAndVersions, Compacted oldest s.capacity s k
      ((List.range k).foldl (compactStep oldest s.capacity) ⟨0, s.start, s.m, s.num⟩) := by
  intro k hk
  induction k with
  | zero => exact ⟨le_rfl, fun _ _ _ => ⟨rfl, rfl⟩, rfl, rfl, by simp⟩
  | succ k ih =>
    obtain ⟨hy, hrest, hkept, hnum, hm⟩ := ih (by omega)
    have hcap := h.le_capacity
    have hn := h.num_eq
    rw [List.range_succ, List.foldl_append]
    generalize (List.range k).foldl (compactStep oldest s.capacity) ⟨0, s.start, s.m, s.num⟩ = c
      at *
    obtain ⟨hk1, hk2⟩ := hrest k le_rfl (by omega)
    simp only [List.foldl_cons, List.foldl_nil, compactStep, hk1]
    split_ifs with hd
    · refine ⟨by simp only; omega, fun i hi hic => hrest i (by omega) hic, ?_, by simp only; omega,
        fun d => ?_⟩
      · simpa [slice_succ, hd] using hkept
      · simp only
        by_cases hkd : (s.start k).key = d
        · subst hkd
          simp only [Function.update_self, Bool.false_eq_true, false_iff, not_and, not_forall]
          exact fun _ => ⟨k, by omega, hd, by simp⟩
        · rw [Function.update_of_ne (Ne.symm hkd), hm]
          simp only [Nat.forall_lt_succ_right, and_congr_right_iff, iff_self_and]
          exact fun _ _ _ => hkd
    · have hne : k ≠ c.y + s.capacity := by omega
      simp only [Function.update_of_ne hne, hk1, hk2]
      refine ⟨by simp only; omega, fun i hi hic => ?_, ?_, by simp only; omega, fun d => ?_⟩
      · simp only
        rw [Function.update_of_ne (by omega), Function.update_of_ne (by omega),
          Function.update_of_ne (by omega), Function.update_of_ne (by omega)]
        exact hrest i (by omega) hic
      · simp only [slice_succ, Function.update_self]
        rw [slice_update (by omega) (by omega), slice_update (by omega) (by omega), hkept,
          Function.update_of_ne (by omega), Function.update_self]
        simp [hd]
      · simp only
        rw [hm]
        simp only [Nat.forall_lt_succ_right, and_congr_right_iff, iff_self_and]
        exact fun _ _ hd' => absurd hd' hd

@[simp] theorem Filling.out_write (f : Filling) (i : Nat) (x : EdgeWithIndex) :
    (f.write i x).out = Function.update f.out i x := by
  obtain ⟨st, _ | g⟩ := f <;> rfl

@[simp] theorem Filling.isSome_write (f : Filling) (i : Nat) (x : EdgeWithIndex) :
    (f.write i x).fresh.isSome = f.fresh.isSome := by
  obtain ⟨st, _ | g⟩ := f <;> rfl

/-- A write to the merge target leaves the unread part of `start` alone. -/
theorem Filling.start_write (f : Filling) {i j : Nat} (x : EdgeWithIndex)
    (hij : f.fresh.isSome = false → j ≠ i) : (f.write i x).start j = f.start j := by
  obtain ⟨st, _ | g⟩ := f
  · exact Function.update_of_ne (hij rfl) _ _
  · rfl

theorem Filling.slice_write (f : Filling) {old i n : Nat} (x : EdgeWithIndex)
    (hi : f.fresh.isSome = false → n ≤ i ∧ i < old ∨ old + n ≤ i) :
    slice (f.write i x).start old n = slice f.start old n := by
  refine slice_congr (fun j hj => f.start_write x fun h => ?_) fun j hj =>
    f.start_write x fun h => ?_
  · have := hi h
    omega
  · have := hi h
    omega

def keyOf (x : Item) : Nat := x.1.key

/-- Lists of items in strictly ascending order of destinations. -/
def Ascending (l : List Item) : Prop := l.Pairwise fun x y => keyOf x < keyOf y

theorem Ascending.concat {l : List Item} {x : Item} (h : Ascending l)
    (hx : ∀ y ∈ l, keyOf y < keyOf x) : Ascending (l ++ [x]) :=
  List.pairwise_append.mpr ⟨h, List.pairwise_singleton _ _, fun y hy z hz => by
    obtain rfl := List.mem_singleton.mp hz
    exact hx y hy⟩

theorem Ascending.of_concat {l : List Item} {x : Item} (h : Ascending (l ++ [x])) :
    Ascending l ∧ ∀ y ∈ l, keyOf y < keyOf x := by
  obtain ⟨hl, -, hx⟩ := List.pairwise_append.mp h
  exact ⟨hl, fun y hy => hx y hy x (List.mem_singleton_self x)⟩

/-- The first x buffer items in the order of `indices`. -/
def buffered (tmpItem : Nat → EdgeWithIndex) (indices : List Nat) (x : Nat) : List Item :=
  (List.range x).map fun i => (tmpItem (indices.getD i 0), tmpItem (indices.getD i 0 + tmpNum))

theorem buffered_succ (tmpItem : Nat → EdgeWithIndex) (indices : List Nat) (x : Nat) :
    buffered tmpItem indices (x + 1) = buffered tmpItem indices x ++
      [(tmpItem (indices.getD x 0), tmpItem (indices.getD x 0 + tmpNum))] := by
  simp [buffered, List.range_succ]

/-- The merge leaves an ascending rearrangement of what was left to place, and nothing above
is touched. -/
structure Filled (f : Filling) (capacity n : Nat) (l : List Item) (g : Nat → EdgeWithIndex) :
    Prop where
  perm : (slice g capacity n).Perm l
  ascending : Ascending (slice g capacity n)
  above : ∀ i, n ≤ i → i < capacity → g i = f.out i ∧ g (i + capacity) = f.out (i + capacity)

/-- Placing the largest item last. -/
theorem Filled.concat {f f' : Filling} {capacity n : Nat} {l : List Item} {x : Item}
    {g : Nat → EdgeWithIndex} (h : Filled f' capacity n l g) (hn : n < capacity)
    (hf : f'.out = Function.update (Function.update f.out (n + capacity) x.2) n x.1)
    (hx : ∀ y ∈ l, keyOf y < keyOf x) : Filled f capacity (n + 1) (l ++ [x]) g := by
  obtain ⟨hperm, hasc, habove⟩ := h
  obtain ⟨h1, h2⟩ := habove n le_rfl hn
  rw [hf, Function.update_self] at h1
  rw [hf, Function.update_of_ne (by omega), Function.update_self] at h2
  refine ⟨?_, ?_, fun i hi hic => ?_⟩
  · rw [slice_succ, h1, h2]
    exact hperm.append_right _
  · rw [slice_succ, h1, h2]
    exact hasc.concat fun y hy => hx y (hperm.mem_iff.mp hy)
  · obtain ⟨hi1, hi2⟩ := habove i (by omega) hic
    rw [hi1, hi2, hf, Function.update_of_ne (by omega), Function.update_of_ne (by omega),
      Function.update_of_ne (by omega), Function.update_of_ne (by omega)]
    exact ⟨rfl, rfl⟩

theorem filled (tmpItem : Nat → EdgeWithIndex) (indices : List Nat) (old : Nat) {capacity : Nat} :
    ∀ (x y : Nat) (f : Filling), y ≤ old → x + y ≤ capacity → old ≤ capacity →
      (f.fresh.isSome = false → capacity = old) →
      Ascending (slice f.start old y) → Ascending (buffered tmpItem indices x) →
      (∀ a ∈ slice f.start old y, ∀ b ∈ buffered tmpItem indices x, keyOf a ≠ keyOf b) →
      let r := fill tmpItem indices old capacity x y f
      Filled f capacity (x + y) (slice f.start old y ++ buffered tmpItem indices x)
        (copyRest old capacity r.2 r.1) := by
  intro x y f
  fun_induction fill tmpItem indices old capacity x y f with
  | case1 y f =>
    intro hy hxy hold hfresh hA _ _
    have hs : slice (copyRest old capacity y f) capacity y = slice f.start old y := by
      obtain ⟨st, _ | g⟩ := f
      · obtain rfl := hfresh rfl
        rfl
      · refine slice_congr (fun i hi => ?_) fun i hi => ?_
        · simp [copyRest, hi]
        · have h1 : ¬ i + capacity < y := by omega
          simp [copyRest, hi, h1]
    simp only [Nat.zero_add]
    refine ⟨by rw [hs]; simp [buffered], by rwa [hs], fun i hi hic => ?_⟩
    obtain ⟨st, _ | g⟩ := f
    · exact ⟨rfl, rfl⟩
    · have h1 : ¬ i < y := by omega
      have h2 : ¬ capacity ≤ i := by omega
      have h3 : ¬ i + capacity < y := by omega
      simp [copyRest, Filling.out, h1, h2, h3]
  | case2 x f t f' ih =>
    intro _ hxy hold hfresh hA hB _
    rw [buffered_succ] at hB
    obtain ⟨hB, hlast⟩ := hB.of_concat
    have ih := ih (by omega) (by omega) hold (by simpa [f'] using hfresh) (by simp [slice, Ascending])
      hB (by simp [slice])
    rw [buffered_succ]
    exact ih.concat (x := (tmpItem t, tmpItem (t + tmpNum))) (by omega) (by simp [f']) hlast
  | case3 x y f t nw hlt f' ih =>
    intro hy hxy hold hfresh hA hB hAB
    rw [buffered_succ] at hB
    obtain ⟨hB, hlast⟩ := hB.of_concat
    have hAs := hA
    rw [slice_succ] at hAs
    obtain ⟨-, hAlast⟩ := hAs.of_concat
    have hstart : slice f'.start old (y + 1) = slice f.start old (y + 1) := by
      simp only [f']
      rw [Filling.slice_write, Filling.slice_write]
      · exact fun h => by have := hfresh h; omega
      · exact fun h => by have := hfresh (by simpa using h); omega
    have ih := ih hy (by omega) hold (by simpa [f'] using hfresh) (by rwa [hstart]) hB
      (by
        rw [hstart]
        exact fun a ha b hb => hAB a ha b (by rw [buffered_succ]; exact List.mem_append_left _ hb))
    rw [hstart] at ih
    rw [buffered_succ, ← List.append_assoc]
    have hnw : nw = x + (y + 1) := by omega
    rw [show x + 1 + (y + 1) = x + (y + 1) + 1 by omega]
    refine ih.concat (x := (tmpItem t, tmpItem (t + tmpNum))) (by omega) (by simp [f', hnw]) ?_
    intro z hz
    rcases List.mem_append.mp hz with hz | hz
    · rw [slice_succ] at hz
      rcases List.mem_append.mp hz with hz | hz
      · exact (hAlast z hz).trans hlt
      · obtain rfl := List.mem_singleton.mp hz
        exact hlt
    · exact hlast z hz
  | case4 x y f t nw hlt f' f'' ih =>
    intro hy hxy hold hfresh hA hB hAB
    have hAB' := hAB (f.start y, f.start (y + old)) (by rw [slice_succ]; simp)
      (tmpItem t, tmpItem (t + tmpNum)) (by rw [buffered_succ]; simp [t])
    have hBold := hB
    rw [buffered_succ] at hB
    obtain ⟨-, hlast⟩ := hB.of_concat
    rw [slice_succ] at hA
    obtain ⟨hA, hAlast⟩ := hA.of_concat
    have hstart : slice f''.start old y = slice f.start old y := by
      simp only [f'', f']
      rw [Filling.slice_write, Filling.slice_write]
      · exact fun h => by have := hfresh h; omega
      · exact fun h => by have := hfresh (by simpa using h); omega
    have hy0 : f'.start y = f.start y :=
      f.start_write _ fun h => by have := hfresh h; omega
    have ih := ih (by omega) (by omega) hold (by simpa [f'', f'] using hfresh) (by rwa [hstart])
      hBold (by
        rw [hstart]
        exact fun a ha b hb => hAB a (by rw [slice_succ]; exact List.mem_append_left _ ha) b hb)
    rw [hstart] at ih
    rw [slice_succ, List.append_assoc]
    have hnw : nw = x + 1 + y := rfl
    have hperm : (slice f.start old y ++ ([(f.start y, f.start (y + old))] ++
        buffered tmpItem indices (x + 1))).Perm
        ((slice f.start old y ++ buffered tmpItem indices (x + 1)) ++
          [(f.start y, f.start (y + old))]) := by
      rw [List.append_assoc]
      exact List.perm_append_comm.append_left _
    have hc := ih.concat (f := f) (x := (f.start y, f.start (y + old))) (by omega)
      (by simp [f'', f', hnw, ← hy0]) ?_
    · exact ⟨hc.perm.trans hperm.symm, hc.ascending, hc.above⟩
    · intro z hz
      have hlt' : keyOf (tmpItem t, tmpItem (t + tmpNum)) < keyOf (f.start y, f.start (y + old)) :=
        lt_of_le_of_ne (not_lt.mp hlt) (Ne.symm hAB')
      rcases List.mem_append.mp hz with hz | hz
      · exact hAlast z hz
      · rw [buffered_succ] at hz
        rcases List.mem_append.mp hz with hz | hz
        · exact (hlast z hz).trans hlt'
        · obtain rfl := List.mem_singleton.mp hz
          exact hlt'

theorem ascending_slice {f : Nat → EdgeWithIndex} {capacity n : Nat} :
    Ascending (slice f capacity n) ↔ ∀ i j, i < j → j < n → (f i).key < (f j).key := by
  rw [Ascending, slice, List.pairwise_map, List.pairwise_iff_getElem]
  simp only [List.getElem_range, List.length_range, keyOf]
  exact ⟨fun h i j hij hj => h i j (by omega) hj hij, fun h i j _ hj hij => h i j hij hj⟩

theorem items_eq (s : VertexEdges) :
    s.items = slice s.tmpItem tmpNum s.tmpEv ++ slice s.start s.capacity s.edgesAndVersions := by
  simp [items, locs, slice, itemAt, itemE, itemP, Function.comp_def]

theorem Rep.item_iff {s : VertexEdges} (h : Rep s) {d : Nat} {x : Item} :
    s.item d = some x ↔ x ∈ s.items ∧ keyOf x = d := by
  constructor
  · intro hx
    obtain ⟨l, hl, rfl, hd⟩ := exists_loc hx
    exact ⟨List.mem_map_of_mem hl, hd⟩
  · rintro ⟨hx, rfl⟩
    obtain ⟨l, hl, rfl⟩ := List.mem_map.mp hx
    exact h.item_eq hl

theorem exists_locs_iff {s : VertexEdges} {d : Nat} :
    (∃ l ∈ s.locs, (s.itemE l).key = d) ↔ ∃ x ∈ s.items, keyOf x = d := by
  simp [items, keyOf, itemAt]

theorem buffered_eq {S : StdSort} {tmpItem : Nat → EdgeWithIndex} {n : Nat}
    {lt : Nat → Nat → Bool} : buffered tmpItem (S.sort n lt) n =
      (S.sort n lt).map fun i => (tmpItem i, tmpItem (i + tmpNum)) := by
  refine List.ext_getElem (by simp [buffered, S.length]) fun i hi _ => ?_
  have hi' : i < n := by simpa [buffered] using hi
  simp [buffered, List.getD_eq_getElem?_getD, S.length, hi']

theorem buffered_perm {S : StdSort} {tmpItem : Nat → EdgeWithIndex} {n : Nat}
    {lt : Nat → Nat → Bool} :
    (buffered tmpItem (S.sort n lt) n).Perm (slice tmpItem tmpNum n) := by
  rw [buffered_eq]
  exact (S.perm n lt).map _

theorem buffered_ascending {S : StdSort} {tmpItem : Nat → EdgeWithIndex} {n : Nat}
    (hinj : ∀ i j, i < n → j < n → (tmpItem i).key = (tmpItem j).key → i = j) :
    Ascending (buffered tmpItem
      (S.sort n fun i j => (tmpItem i).key < (tmpItem j).key) n) := by
  rw [buffered_eq, Ascending, List.pairwise_map]
  have hlt : ∀ i j, decide ((tmpItem i).key < (tmpItem j).key) = true ↔
      (tmpItem i).key < (tmpItem j).key := fun _ _ => decide_eq_true_iff
  have hsort := S.sorted_key (fun i => (tmpItem i).key) hlt n
  refine ((hsort.and (S.nodup n _)).imp_of_mem ?_)
  intro i j hi hj hij
  exact lt_of_le_of_ne hij.1 fun heq => hij.2 (hinj i j (S.mem.mp hi) (S.mem.mp hj) heq)

/-- The merge keeps a prefix of `start` and the whole buffer, in ascending order. -/
theorem merge_filled (S : StdSort) (env : Env) {s : VertexEdges} (h : Rep s)
    (ht : s.tmpEv = tmpNum) :
    let t := mergeTmpevWithEb S env s
    t.num = t.edgesAndVersions ∧ t.edgesAndVersions ≤ t.capacity ∧
      (slice t.start t.capacity t.edgesAndVersions).Perm
        ((slice s.start s.capacity s.edgesAndVersions).filter (fun x => !dropped env.oldest x.1) ++
          slice s.tmpItem tmpNum tmpNum) ∧
      Ascending (slice t.start t.capacity t.edgesAndVersions) ∧
      ∀ d, t.m d = true ↔ s.m d = true ∧
        ∀ i < s.edgesAndVersions, dropped env.oldest (s.start i) = true → (s.start i).key ≠ d := by
  have hn := h.num_eq
  have hcap := h.le_capacity
  have hc : Compacted env.oldest s.capacity s s.edgesAndVersions (compact env.oldest s) :=
    compacted h _ le_rfl
  obtain ⟨hy, -, hkept, hnum, hm⟩ := hc
  have hroom : s.num ≤ newCapacity s ∧ s.capacity ≤ newCapacity s := by
    unfold newCapacity
    split_ifs with h1 h2
    · omega
    · have := le_growCapacity s.num s.num s.capacity (by omega) (by omega)
      omega
    · omega
  have hperm : (buffered s.tmpItem (bufferOrder S s) tmpNum).Perm
      (slice s.tmpItem tmpNum tmpNum) := buffered_perm
  have hB : Ascending (buffered s.tmpItem (bufferOrder S s) tmpNum) :=
    buffered_ascending (ht ▸ h.tmp_inj)
  have hA : Ascending (slice (compact env.oldest s).start s.capacity (compact env.oldest s).y) := by
    rw [hkept]
    exact (ascending_slice.mpr h.sorted).filter _
  have hdisj : ∀ a ∈ slice (compact env.oldest s).start s.capacity (compact env.oldest s).y,
      ∀ b ∈ buffered s.tmpItem (bufferOrder S s) tmpNum, keyOf a ≠ keyOf b := by
    intro a ha b hb
    rw [hkept, List.mem_filter] at ha
    obtain ⟨j, hj, rfl⟩ := List.mem_map.mp ha.1
    obtain ⟨i, hi, rfl⟩ := List.mem_map.mp (hperm.mem_iff.mp hb)
    rw [List.mem_range] at hi hj
    exact (h.disjoint i j (ht ▸ hi) hj).symm
  have hfill := filled s.tmpItem (bufferOrder S s) s.capacity tmpNum (compact env.oldest s).y
    ⟨(compact env.oldest s).start, if s.capacity < s.num then some env.malloc else none⟩
    (by omega) (by omega) hroom.2 (by unfold newCapacity; split_ifs <;> simp) hA hB hdisj
  obtain ⟨hp, hasc, -⟩ := hfill
  rw [Nat.add_comm] at hp hasc
  refine ⟨by simp only [mergeTmpevWithEb]; omega, by simp only [mergeTmpevWithEb]; omega, ?_, hasc,
    hm⟩
  have hp' := hp.trans (hperm.append_left _)
  rwa [hkept] at hp'

/-- What a merge of a full buffer does to the items. -/
structure Merged (oldest : Nat) (s t : VertexEdges) : Prop where
  rep : Rep t
  tmpEv : t.tmpEv = 0
  old : ∀ x ∈ t.items, x ∈ s.items
  kept : ∀ x ∈ s.items, dropped oldest x.1 = false → x ∈ t.items

theorem merged (S : StdSort) (env : Env) {s : VertexEdges} (h : Rep s) (ht : s.tmpEv = tmpNum) :
    Merged env.oldest s (mergeTmpevWithEb S env s) := by
  obtain ⟨hnum, hle, hp, hasc, hm⟩ := merge_filled S env h ht
  set t := mergeTmpevWithEb S env s with hdef
  have hdisj : ∀ a ∈ slice s.start s.capacity s.edgesAndVersions,
      ∀ b ∈ slice s.tmpItem tmpNum tmpNum, keyOf a ≠ keyOf b := by
    intro a ha b hb
    obtain ⟨j, hj, rfl⟩ := List.mem_map.mp ha
    obtain ⟨i, hi, rfl⟩ := List.mem_map.mp hb
    rw [List.mem_range] at hi hj
    exact (h.disjoint i j (ht ▸ hi) hj).symm
  have hmem : ∀ x, x ∈ t.items ↔
      (x ∈ slice s.start s.capacity s.edgesAndVersions ∧ dropped env.oldest x.1 = false) ∨
        x ∈ slice s.tmpItem tmpNum tmpNum := by
    intro x
    have hslice : t.items = slice t.start t.capacity t.edgesAndVersions := by
      rw [items_eq]
      simp [hdef, mergeTmpevWithEb, slice]
    rw [hslice, hp.mem_iff, List.mem_append, List.mem_filter, Bool.not_eq_true']
  have hitems : ∀ x, x ∈ s.items ↔
      x ∈ slice s.start s.capacity s.edgesAndVersions ∨ x ∈ slice s.tmpItem tmpNum tmpNum := by
    intro x
    rw [items_eq, List.mem_append, ht, or_comm]
  refine ⟨⟨Nat.zero_le _, hle, hnum, ascending_slice.mp hasc, ?_, ?_, ?_⟩, rfl, ?_, ?_⟩
  · intro i j hi; exact absurd hi (Nat.not_lt_zero i)
  · intro i j hi; exact absurd hi (Nat.not_lt_zero i)
  · intro d
    rw [exists_locs_iff, hm d, h.keys, exists_locs_iff]
    constructor
    · rintro ⟨⟨x, hx, rfl⟩, hnd⟩
      refine ⟨x, (hmem x).mpr ?_, rfl⟩
      rcases (hitems x).mp hx with hxs | hxt
      · obtain ⟨i, hi, rfl⟩ := List.mem_map.mp hxs
        refine Or.inl ⟨hxs, ?_⟩
        by_contra hd
        exact hnd i (List.mem_range.mp hi) (by simpa using hd) rfl
      · exact Or.inr hxt
    · rintro ⟨x, hx, rfl⟩
      rcases (hmem x).mp hx with ⟨hxs, hd⟩ | hxt
      · refine ⟨⟨x, (hitems x).mpr (Or.inl hxs), rfl⟩, fun i hi hdi hk => ?_⟩
        obtain ⟨j, hj, rfl⟩ := List.mem_map.mp hxs
        have hij : Loc.start i = Loc.start j :=
          h.loc_inj (mem_locs.mpr hi) (mem_locs.mpr (List.mem_range.mp hj)) hk
        obtain rfl := Loc.start.inj hij
        rw [hd] at hdi
        cases hdi
      · refine ⟨⟨x, (hitems x).mpr (Or.inr hxt), rfl⟩, fun i hi _ hk => ?_⟩
        exact hdisj _ (List.mem_map_of_mem (List.mem_range.mpr hi)) x hxt hk
  · intro x hx
    rw [hitems]
    exact ((hmem x).mp hx).imp And.left id
  · intro x hx hd
    rw [hmem]
    exact ((hitems x).mp hx).imp (fun hxs => ⟨hxs, hd⟩) id

/-- An item that is not dropped survives the merge. -/
theorem Merged.item_of {oldest : Nat} {s t : VertexEdges} (h : Merged oldest s t) (hs : Rep s)
    {d : Nat} {x : Item} (hx : s.item d = some x) (hd : dropped oldest x.1 = false) :
    t.item d = some x := by
  obtain ⟨hmem, hk⟩ := hs.item_iff.mp hx
  exact h.rep.item_iff.mpr ⟨h.kept x hmem hd, hk⟩

theorem Merged.item_old {oldest : Nat} {s t : VertexEdges} (h : Merged oldest s t) (hs : Rep s)
    {d : Nat} {x : Item} (hx : t.item d = some x) : s.item d = some x := by
  obtain ⟨hmem, hk⟩ := h.rep.item_iff.mp hx
  exact hs.item_iff.mpr ⟨h.old x hmem, hk⟩

end VertexEdges

end AVBGraph
