import AVBGraph.Framework.StdSort
import AVBGraph.Vertex.History
import AVBGraph.Vertex.Traversal

namespace AVBGraph

open Framework

/-- The test of for_each_edge_sorted on an entry. -/
def passes (e : Nat) (x : EdgeWithIndex) : Bool := !isDelete x.e && x.isVisibleAt e

/-- The start value of `last`, `~(dst_t)0`. -/
def noDst : Nat := 2 ^ 64 - 1

/-- The two-pointer loop over the rest of `start` and the rest of the sorted buffer. Every
round takes one entry, so the fuel is the number of entries. -/
def mergeLoop (e : Nat) : Nat → List EdgeWithIndex → List EdgeWithIndex → Nat → List EdgeWithIndex
  | 0, _, _, _ => []
  | _ + 1, [], [], _ => []
  | fuel + 1, [], t :: ts, last =>
    if t.e ≠ last then t :: mergeLoop e fuel [] ts t.e else mergeLoop e fuel [] ts last
  | fuel + 1, x :: xs, [], last =>
    if x.e ≠ last then x :: mergeLoop e fuel xs [] x.e else mergeLoop e fuel xs [] last
  | fuel + 1, x :: xs, t :: ts, last =>
    if !passes e x then mergeLoop e fuel xs (t :: ts) last
    else if x.e < t.e then
      if x.e ≠ last then x :: mergeLoop e fuel xs (t :: ts) x.e
      else mergeLoop e fuel xs (t :: ts) last
    else
      if t.e ≠ last then t :: mergeLoop e fuel (x :: xs) ts t.e
      else mergeLoop e fuel (x :: xs) ts last

namespace VertexEdges

def primary (s : VertexEdges) : List EdgeWithIndex := (List.range s.edgesAndVersions).map s.start

def buffer (s : VertexEdges) : List EdgeWithIndex := (List.range s.tmpEv).map s.tmpItem

/-- `tmp_buf` before it is sorted. -/
def collected (s : VertexEdges) (e : Nat) : List EdgeWithIndex := s.buffer.filter (passes e)

/-- `tmp_buf` after std::sort. -/
def tmpBuf (S : StdSort) (s : VertexEdges) (e : Nat) : List EdgeWithIndex :=
  let buf := s.collected e
  (S.sort buf.length fun i j => (buf.getD i default).e < (buf.getD j default).e).map
    fun i => buf.getD i default

/-- for_each_edge_sorted: the edges handed to the callback, in order. -/
def forEachEdgeSorted (S : StdSort) (s : VertexEdges) (e : Nat) : List EdgeWithIndex :=
  mergeLoop e (s.edgesAndVersions + (s.tmpBuf S e).length) s.primary (s.tmpBuf S e) noDst

end VertexEdges

/-- The entries of `start` that the loop hands out without a test, from where the buffer is
exhausted: all of them if it is empty, else those from the first passes entry behind it. -/
def untested (e : Nat) (xs ts : List EdgeWithIndex) : List EdgeWithIndex :=
  match ts.getLast? with
  | none => xs
  | some t => xs.dropWhile fun x => !(passes e x && decide (t.e < x.e))

section Merge

variable {e fuel last d : Nat} {xs ts : List EdgeWithIndex} {x t : EdgeWithIndex}

theorem key_of_shown (hx : x.e < 2 ^ 64) (h : passes e x = true) : x.key = x.e := by
  simp only [passes, Bool.and_eq_true, Bool.not_eq_true', isDelete, decide_eq_false_iff_not] at h
  rw [EdgeWithIndex.key, clearDelete]
  omega

/-- The two lists of the loop: ascending destinations, every entry of the buffer that passes, and
`last` apart from what can come next. -/
structure Mergeable (e last : Nat) (xs ts : List EdgeWithIndex) : Prop where
  primary : xs.Pairwise fun x y => x.key < y.key
  buffer : ts.Pairwise fun x y => x.key < y.key
  disjoint : ∀ x ∈ xs, ∀ t ∈ ts, x.key ≠ t.key
  passes : ∀ t ∈ ts, AVBGraph.passes e t = true
  word : ∀ x ∈ xs ++ ts, x.e < 2 ^ 64
  last_buffer : ∀ t ∈ ts, t.e ≠ last
  last_shown : ∀ x ∈ xs, AVBGraph.passes e x = true → x.e ≠ last
  last_head : ts = [] → ∀ x ∈ xs.head?, x.e ≠ last

theorem e_ne_of_key_ne {y : EdgeWithIndex} (h : x.key ≠ y.key) : x.e ≠ y.e := fun heq =>
  h (congrArg clearDelete heq)

namespace Mergeable

theorem skip (h : Mergeable e last (x :: xs) (t :: ts)) : Mergeable e last xs (t :: ts) where
  primary := (List.pairwise_cons.mp h.primary).2
  buffer := h.buffer
  disjoint := fun y hy => h.disjoint y (List.mem_cons_of_mem _ hy)
  passes := h.passes
  word := fun y hy => h.word y (List.mem_cons_of_mem _ hy)
  last_buffer := h.last_buffer
  last_shown := fun y hy => h.last_shown y (List.mem_cons_of_mem _ hy)
  last_head := fun hnil => absurd hnil (List.cons_ne_nil _ _)

theorem takeStart (h : Mergeable e last (x :: xs) ts) : Mergeable e x.e xs ts := by
  obtain ⟨hx, hxs⟩ := List.pairwise_cons.mp h.primary
  have hne : ∀ y ∈ xs, y.e ≠ x.e := fun y hy => e_ne_of_key_ne (hx y hy).ne'
  refine ⟨hxs, h.buffer, fun y hy => h.disjoint y (List.mem_cons_of_mem _ hy), h.passes,
    fun y hy => h.word y (List.mem_cons_of_mem _ hy), fun y hy => ?_, fun y hy _ => hne y hy,
    fun _ y hy => hne y (List.mem_of_mem_head? hy)⟩
  exact e_ne_of_key_ne (h.disjoint x List.mem_cons_self y hy).symm

theorem takeBuffer (h : Mergeable e last xs (t :: ts)) : Mergeable e t.e xs ts := by
  obtain ⟨ht, hts⟩ := List.pairwise_cons.mp h.buffer
  have hne : ∀ y ∈ xs, y.e ≠ t.e := fun y hy =>
    e_ne_of_key_ne (h.disjoint y hy t List.mem_cons_self)
  refine ⟨h.primary, hts, fun y hy u hu => h.disjoint y hy u (List.mem_cons_of_mem _ hu),
    fun u hu => h.passes u (List.mem_cons_of_mem _ hu), fun y hy => h.word y ?_, fun u hu => ?_,
    fun y hy _ => hne y hy, fun _ y hy => hne y (List.mem_of_mem_head? hy)⟩
  · rcases List.mem_append.mp hy with hy | hy
    · exact List.mem_append_left _ hy
    · exact List.mem_append_right _ (List.mem_cons_of_mem _ hy)
  · exact e_ne_of_key_ne (ht u hu).ne'

/-- A passes entry lies as its word does. -/
theorem key_start (h : Mergeable e last (x :: xs) ts) (hx : AVBGraph.passes e x = true) :
    x.key = x.e := key_of_shown (h.word x (by simp)) hx

theorem key_buffer (h : Mergeable e last xs (t :: ts)) : ∀ u ∈ t :: ts, u.key = u.e :=
  fun u hu => key_of_shown (h.word u (List.mem_append_right _ hu)) (h.passes u hu)

theorem head_le (h : Mergeable e last xs (t :: ts)) : ∀ u ∈ (t :: ts).getLast?, t.e ≤ u.e := by
  intro u hu
  have hmem : u ∈ t :: ts := List.mem_of_mem_getLast? hu
  rw [← h.key_buffer t List.mem_cons_self, ← h.key_buffer u hmem]
  rcases List.mem_cons.mp hmem with rfl | hmem
  · exact le_rfl
  · exact ((List.pairwise_cons.mp h.buffer).1 u hmem).le

end Mergeable

theorem untested_hidden (hx : passes e x = false) :
    untested e (x :: xs) (t :: ts) = untested e xs (t :: ts) := by
  obtain ⟨u, hu⟩ : ∃ u, (t :: ts).getLast? = some u := ⟨_, List.getLast?_eq_some_getLast (by simp)⟩
  simp only [untested, hu]
  rw [List.dropWhile_cons_of_pos]
  simp [hx]

theorem untested_before (h : Mergeable e last (x :: xs) (t :: ts)) (hlt : x.e < t.e) :
    untested e (x :: xs) (t :: ts) = untested e xs (t :: ts) := by
  obtain ⟨u, hu⟩ : ∃ u, (t :: ts).getLast? = some u := ⟨_, List.getLast?_eq_some_getLast (by simp)⟩
  have hle : t.e ≤ u.e := h.head_le u hu
  have hnot : ¬u.e < x.e := by omega
  simp only [untested, hu]
  rw [List.dropWhile_cons_of_pos]
  simp [hnot]

theorem untested_behind (hx : passes e x = true) (hlt : t.e < x.e) :
    untested e (x :: xs) (t :: ts) = untested e (x :: xs) ts := by
  cases ts with
  | nil =>
    simp only [untested, List.getLast?_singleton, List.getLast?_nil]
    rw [List.dropWhile_cons_of_neg]
    simp [hx, hlt]
  | cons u ts => simp only [untested, List.getLast?_cons_cons]

@[simp] theorem untested_nil : untested e [] ts = [] := by
  unfold untested
  split <;> rfl

theorem untested_of_exhausted : untested e xs [] = xs := rfl

/-- The loop hands out the whole buffer, the passes entries of `start` and the untested ones. -/
theorem mem_mergeLoop (h : Mergeable e last xs ts) (hf : xs.length + ts.length ≤ fuel)
    {y : EdgeWithIndex} : y ∈ mergeLoop e fuel xs ts last ↔
      y ∈ ts ∨ (y ∈ xs ∧ passes e y = true) ∨ y ∈ untested e xs ts := by
  fun_induction mergeLoop e fuel xs ts last with
  | case1 xs ts last =>
    obtain ⟨rfl, rfl⟩ : xs = [] ∧ ts = [] := by
      constructor <;> apply List.eq_nil_of_length_eq_zero <;> omega
    simp [untested]
  | case2 => simp [untested]
  | case3 fuel t ts last hne ih =>
    rw [List.mem_cons, ih h.takeBuffer (by simp at hf ⊢; omega)]
    simp
  | case4 fuel t ts last heq ih => exact absurd (h.last_buffer t List.mem_cons_self) heq
  | case5 fuel x xs last hne ih =>
    rw [List.mem_cons, ih h.takeStart (by simp at hf ⊢; omega)]
    simp only [untested_of_exhausted, List.mem_cons, List.not_mem_nil, false_or]
    tauto
  | case6 fuel x xs last heq ih => exact absurd (h.last_head rfl x (by simp)) heq
  | case7 fuel x xs t ts last hx ih =>
    have hx : passes e x = false := by simpa using hx
    have hshown : y ∈ x :: xs ∧ passes e y = true ↔ y ∈ xs ∧ passes e y = true := by
      apply and_congr_left
      intro hy
      rw [List.mem_cons, or_iff_right]
      rintro rfl
      rw [hx] at hy
      exact Bool.false_ne_true hy
    rw [ih h.skip (by simp at hf ⊢; omega), untested_hidden hx, hshown]
  | case8 fuel x xs t ts last hx hlt hne ih =>
    have hx : passes e x = true := by simpa using hx
    rw [List.mem_cons, ih h.takeStart (by simp at hf ⊢; omega), untested_before h hlt,
      List.mem_cons (l := xs)]
    constructor
    · rintro (rfl | hy | ⟨hy, hs⟩ | hy)
      · exact Or.inr (Or.inl ⟨Or.inl rfl, hx⟩)
      · exact Or.inl hy
      · exact Or.inr (Or.inl ⟨Or.inr hy, hs⟩)
      · exact Or.inr (Or.inr hy)
    · rintro (hy | ⟨rfl | hy, hs⟩ | hy)
      · exact Or.inr (Or.inl hy)
      · exact Or.inl rfl
      · exact Or.inr (Or.inr (Or.inl ⟨hy, hs⟩))
      · exact Or.inr (Or.inr (Or.inr hy))
  | case9 fuel x xs t ts last hx hlt heq ih =>
    exact absurd (h.last_shown x List.mem_cons_self (by simpa using hx)) heq
  | case10 fuel x xs t ts last hx hlt hne ih =>
    have hx : passes e x = true := by simpa using hx
    have hlt : t.e < x.e := by
      have hkey := h.disjoint x List.mem_cons_self t List.mem_cons_self
      rw [h.key_start hx, h.key_buffer t List.mem_cons_self] at hkey
      omega
    rw [List.mem_cons, ih h.takeBuffer (by simp at hf ⊢; omega), untested_behind hx hlt,
      List.mem_cons (l := ts), or_assoc]
  | case11 fuel x xs t ts last hx hlt heq ih =>
    exact absurd (h.last_buffer t List.mem_cons_self) heq

theorem mem_of_mergeLoop (h : Mergeable e last xs ts) (hf : xs.length + ts.length ≤ fuel)
    {y : EdgeWithIndex} (hy : y ∈ mergeLoop e fuel xs ts last) : y ∈ xs ∨ y ∈ ts := by
  rcases (mem_mergeLoop h hf).mp hy with hy | ⟨hy, -⟩ | hy
  · exact Or.inr hy
  · exact Or.inl hy
  · left
    unfold untested at hy
    split at hy
    · exact hy
    · exact (List.dropWhile_suffix _).subset hy

/-- Whatever the loop hands out comes in ascending order of destinations. -/
theorem mergeLoop_ascending (h : Mergeable e last xs ts) (hf : xs.length + ts.length ≤ fuel) :
    (mergeLoop e fuel xs ts last).Pairwise fun x y => x.key < y.key := by
  fun_induction mergeLoop e fuel xs ts last with
  | case1 => exact List.Pairwise.nil
  | case2 => exact List.Pairwise.nil
  | case3 fuel t ts last hne ih =>
    have hf' : ([] : List EdgeWithIndex).length + ts.length ≤ fuel := by simp at hf ⊢; omega
    refine List.pairwise_cons.mpr ⟨fun y hy => ?_, ih h.takeBuffer hf'⟩
    exact (List.pairwise_cons.mp h.buffer).1 y
      ((mem_of_mergeLoop h.takeBuffer hf' hy).resolve_left (by simp))
  | case4 fuel t ts last heq ih => exact absurd (h.last_buffer t List.mem_cons_self) heq
  | case5 fuel x xs last hne ih =>
    have hf' : xs.length + ([] : List EdgeWithIndex).length ≤ fuel := by simp at hf ⊢; omega
    refine List.pairwise_cons.mpr ⟨fun y hy => ?_, ih h.takeStart hf'⟩
    exact (List.pairwise_cons.mp h.primary).1 y
      ((mem_of_mergeLoop h.takeStart hf' hy).resolve_right (by simp))
  | case6 fuel x xs last heq ih => exact absurd (h.last_head rfl x (by simp)) heq
  | case7 fuel x xs t ts last hx ih => exact ih h.skip (by simp at hf ⊢; omega)
  | case8 fuel x xs t ts last hx hlt hne ih =>
    have hf' : xs.length + (t :: ts).length ≤ fuel := by simp at hf ⊢; omega
    have hkey : x.key < t.key := by
      rw [h.key_start (by simpa using hx), h.key_buffer t List.mem_cons_self]
      exact hlt
    refine List.pairwise_cons.mpr ⟨fun y hy => ?_, ih h.takeStart hf'⟩
    rcases mem_of_mergeLoop h.takeStart hf' hy with hy | hy
    · exact (List.pairwise_cons.mp h.primary).1 y hy
    · rcases List.mem_cons.mp hy with rfl | hy
      · exact hkey
      · exact hkey.trans ((List.pairwise_cons.mp h.buffer).1 y hy)
  | case9 fuel x xs t ts last hx hlt heq ih =>
    exact absurd (h.last_shown x List.mem_cons_self (by simpa using hx)) heq
  | case10 fuel x xs t ts last hx hlt hne ih =>
    have hf' : (x :: xs).length + ts.length ≤ fuel := by simp at hf ⊢; omega
    have hkey : t.key < x.key := by
      have hkey := h.disjoint x List.mem_cons_self t List.mem_cons_self
      rw [h.key_start (by simpa using hx), h.key_buffer t List.mem_cons_self] at hkey ⊢
      omega
    refine List.pairwise_cons.mpr ⟨fun y hy => ?_, ih h.takeBuffer hf'⟩
    rcases mem_of_mergeLoop h.takeBuffer hf' hy with hy | hy
    · rcases List.mem_cons.mp hy with rfl | hy
      · exact hkey
      · exact hkey.trans ((List.pairwise_cons.mp h.primary).1 y hy)
    · exact (List.pairwise_cons.mp h.buffer).1 y hy
  | case11 fuel x xs t ts last hx hlt heq ih =>
    exact absurd (h.last_buffer t List.mem_cons_self) heq

end Merge

namespace VertexEdges

variable {b : Build} {S : StdSort} {s : VertexEdges} {e : Nat}

/-- A vertex without unpublished entries: the destinations of the primary adjacency ascend, and
those of the buffer are further ones, each once. -/
structure AllPublished (s : VertexEdges) : Prop where
  primary : s.primary.Pairwise fun x y => x.key < y.key
  buffer : s.buffer.Pairwise fun x y => x.key ≠ y.key
  disjoint : ∀ x ∈ s.primary, ∀ t ∈ s.buffer, x.key ≠ t.key
  word : ∀ x ∈ s.primary ++ s.buffer, x.e < 2 ^ 64
  published : ∀ k < 16, (s.tmpVb k).entries = []

/-- The entries of `start` that for_each_edge_sorted hands out without a test: all of them if the
buffer shows nothing, else those from the first passes entry behind the buffer on. A single entry
whose word is the start value of `last` is taken for a repetition. -/
def behindBuffer (s : VertexEdges) (e : Nat) : List EdgeWithIndex :=
  if s.collected e = [] then s.primary.dropWhile fun x => x.e = noDst
  else s.primary.dropWhile fun x => !(passes e x && (s.collected e).all fun t => t.e < x.e)

/-- A version block holds a version of the destination for the end of the epoch. -/
def InBlocks (b : Build) (s : VertexEdges) (e d : Nat) : Prop :=
  ∃ r ∈ s.chainScan b ⟨e, intraMax⟩, r.1.key = d

/-- An entry passes the deletion and epoch test, or lies behind the buffer. -/
def HandedOut (s : VertexEdges) (e : Nat) (x : EdgeWithIndex) : Prop :=
  (x ∈ s.buffer ++ s.primary ∧ passes e x = true) ∨ x ∈ s.behindBuffer e

theorem tmpBuf_perm (S : StdSort) (s : VertexEdges) (e : Nat) :
    (s.tmpBuf S e).Perm (s.collected e) :=
  S.perm_map_getD (s.collected e) _

theorem mem_tmpBuf {x : EdgeWithIndex} : x ∈ s.tmpBuf S e ↔ x ∈ s.buffer ∧ passes e x = true := by
  rw [(tmpBuf_perm S s e).mem_iff, collected, List.mem_filter]

theorem tmpBuf_sorted (S : StdSort) (s : VertexEdges) (e : Nat) :
    (s.tmpBuf S e).Pairwise fun x y => x.e ≤ y.e := by
  unfold tmpBuf
  rw [List.pairwise_map]
  exact S.sorted_key (fun i => ((s.collected e).getD i default).e) (fun _ _ => decide_eq_true_iff) _

theorem AllPublished.tmpBuf_ascending (h : s.AllPublished) :
    (s.tmpBuf S e).Pairwise fun x y => x.key < y.key := by
  have hkey : ∀ x ∈ s.tmpBuf S e, x.key = x.e := by
    intro x hx
    obtain ⟨hx, hs⟩ := mem_tmpBuf.mp hx
    exact key_of_shown (h.word x (List.mem_append_right _ hx)) hs
  have hne : (s.tmpBuf S e).Pairwise fun x y => x.key ≠ y.key :=
    ((tmpBuf_perm S s e).pairwise_iff fun h => h.symm).mpr (h.buffer.filter _)
  apply (hne.and (tmpBuf_sorted S s e)).imp_of_mem
  intro x y hx hy hxy
  rw [hkey x hx, hkey y hy] at hxy ⊢
  omega

theorem AllPublished.mergeable (h : s.AllPublished) (hlast : s.tmpBuf S e = [] →
    ∀ x ∈ s.primary.head?, x.e ≠ noDst) : Mergeable e noDst s.primary (s.tmpBuf S e) := by
  have hmem : ∀ t ∈ s.tmpBuf S e, t ∈ s.buffer := fun t ht => (mem_tmpBuf.mp ht).1
  have hshown : ∀ x ∈ s.primary ++ s.buffer, passes e x = true → x.e ≠ noDst := by
    intro x hx hs heq
    have hkey := key_of_shown (h.word x hx) hs
    have hlt := clearDelete_lt x.e
    rw [EdgeWithIndex.key, heq] at hkey
    rw [heq, noDst] at hlt
    rw [noDst] at hkey
    omega
  refine ⟨h.primary, h.tmpBuf_ascending, fun x hx t ht => h.disjoint x hx t (hmem t ht),
    fun t ht => (mem_tmpBuf.mp ht).2, fun x hx => h.word x ?_, fun t ht => ?_, fun x hx => ?_, hlast⟩
  · rcases List.mem_append.mp hx with hx | hx
    · exact List.mem_append_left _ hx
    · exact List.mem_append_right _ (hmem x hx)
  · exact hshown t (List.mem_append_right _ (hmem t ht)) (mem_tmpBuf.mp ht).2
  · exact hshown x (List.mem_append_left _ hx)

theorem tmpBuf_eq_nil : s.tmpBuf S e = [] ↔ s.collected e = [] := by
  rw [← List.length_eq_zero_iff, (tmpBuf_perm S s e).length_eq, List.length_eq_zero_iff]

/-- Behind the buffer means behind its last entry. -/
theorem untested_tmpBuf (hne : s.collected e ≠ []) :
    untested e s.primary (s.tmpBuf S e) = s.behindBuffer e := by
  have hbuf : s.tmpBuf S e ≠ [] := tmpBuf_eq_nil.not.mpr hne
  obtain ⟨ts, t, hts⟩ := (List.eq_nil_or_concat' _).resolve_left hbuf
  have hle : ∀ u ∈ s.collected e, u.e ≤ t.e := by
    intro u hu
    have hsorted := tmpBuf_sorted S s e
    rw [← (tmpBuf_perm S s e).mem_iff, hts] at hu
    rw [hts] at hsorted
    rcases List.mem_append.mp hu with hu | hu
    · exact (List.pairwise_append.mp hsorted).2.2 u hu t (List.mem_singleton_self t)
    · rw [List.mem_singleton.mp hu]
  have ht : t ∈ s.collected e := by
    rw [← (tmpBuf_perm S s e).mem_iff, hts]
    simp
  have hall : ∀ x : EdgeWithIndex, ((s.collected e).all fun u => decide (u.e < x.e)) =
      decide (t.e < x.e) := by
    intro x
    rw [Bool.eq_iff_iff, List.all_eq_true]
    simp only [decide_eq_true_eq]
    exact ⟨fun hx => hx t ht, fun hx u hu => (hle u hu).trans_lt hx⟩
  rw [behindBuffer, if_neg hne, untested, hts, List.getLast?_concat]
  simp only [hall]

/-- A single entry with the start value of `last` is all there is. -/
theorem AllPublished.singleton (h : s.AllPublished) {x : EdgeWithIndex} {xs : List EdgeWithIndex}
    (hp : s.primary = x :: xs) (hx : x.e = noDst) : xs = [] := by
  apply List.eq_nil_iff_forall_not_mem.mpr
  intro y hy
  have hlt : x.key < y.key := (List.pairwise_cons.mp (hp ▸ h.primary)).1 y hy
  have hy := clearDelete_lt y.e
  rw [EdgeWithIndex.key, EdgeWithIndex.key, hx, noDst, clearDelete] at hlt
  omega

theorem forEachEdgeSorted_noDst (h : s.AllPublished) (hbuf : s.tmpBuf S e = [])
    {x : EdgeWithIndex} (hp : s.primary.head? = some x) (hx : x.e = noDst) :
    s.primary = [x] ∧ s.forEachEdgeSorted S e = [] := by
  obtain ⟨xs, hxs⟩ := List.head?_eq_some_iff.mp hp
  obtain rfl := h.singleton hxs hx
  have hlen : s.edgesAndVersions = 1 := by simpa [primary] using congrArg List.length hxs
  refine ⟨hxs, ?_⟩
  rw [forEachEdgeSorted, hbuf, hxs, hlen]
  simp [mergeLoop, hx]

/-- The edges that for_each_edge_sorted hands out. -/
theorem mem_forEachEdgeSorted (h : s.AllPublished) {x : EdgeWithIndex} :
    x ∈ s.forEachEdgeSorted S e ↔ s.HandedOut e x := by
  by_cases hlast : s.tmpBuf S e = [] → ∀ x ∈ s.primary.head?, x.e ≠ noDst
  · have hfuel : s.primary.length + (s.tmpBuf S e).length ≤
        s.edgesAndVersions + (s.tmpBuf S e).length := by simp [primary]
    rw [forEachEdgeSorted, mem_mergeLoop (h.mergeable hlast) hfuel, mem_tmpBuf]
    have htail : untested e s.primary (s.tmpBuf S e) = s.behindBuffer e := by
      by_cases hne : s.collected e = []
      · have hbuf : s.tmpBuf S e = [] := tmpBuf_eq_nil.mpr hne
        rw [hbuf, behindBuffer, if_pos hne, untested_of_exhausted]
        cases hp : s.primary with
        | nil => rfl
        | cons y ys =>
          have hy : y.e ≠ noDst := hlast hbuf y (by simp [hp])
          rw [List.dropWhile_cons_of_neg (by simpa using hy)]
      · exact untested_tmpBuf hne
    rw [htail, HandedOut, List.mem_append, or_and_right, or_assoc]
  · push Not at hlast
    obtain ⟨hbuf, y, hy, heq⟩ := hlast
    obtain ⟨hp, hnil⟩ := forEachEdgeSorted_noDst h hbuf hy heq
    have hhidden : passes e y = false := by
      rw [passes, heq]
      rfl
    have hno : ∀ x ∈ s.buffer, ¬passes e x = true := by
      intro x hx hs
      have : x ∈ s.tmpBuf S e := mem_tmpBuf.mpr ⟨hx, hs⟩
      simp [hbuf] at this
    rw [hnil, HandedOut, behindBuffer, if_pos (tmpBuf_eq_nil.mp hbuf), hp,
      List.dropWhile_cons_of_pos (by simpa using heq)]
    constructor
    · simp
    · rintro (⟨hx, hs⟩ | hx)
      · rcases List.mem_append.mp hx with hx | hx
        · exact absurd hs (hno x hx)
        · rw [List.mem_singleton.mp hx, hhidden] at hs
          exact absurd hs Bool.false_ne_true
      · simp at hx

theorem forEachEdgeSorted_ascending (h : s.AllPublished) :
    ((s.forEachEdgeSorted S e).map EdgeWithIndex.key).Pairwise (· < ·) := by
  rw [List.pairwise_map]
  by_cases hlast : s.tmpBuf S e = [] → ∀ x ∈ s.primary.head?, x.e ≠ noDst
  · exact mergeLoop_ascending (h.mergeable hlast) (by simp [primary])
  · push Not at hlast
    obtain ⟨hbuf, y, hy, heq⟩ := hlast
    rw [(forEachEdgeSorted_noDst h hbuf hy heq).2]
    exact List.Pairwise.nil

/-- The test of the plain scan at the end of an epoch. -/
def plain (b : Build) (e : Nat) (x : EdgeWithIndex) : Bool :=
  !isDelete x.e && x.visibleAt b ⟨e, intraMax⟩

theorem shown_of_plain {x : EdgeWithIndex} (h : plain b e x = true) : passes e x = true := by
  simp only [plain, Bool.and_eq_true] at h
  rw [passes, h.1, Bool.true_and]
  have hvis := h.2
  cases b with
  | fineGrain =>
    have hlt : x.creation < ⟨e, intraMax⟩ := of_decide_eq_true hvis
    simp only [Composite.lt_def, EdgeWithIndex.creation] at hlt
    exact decide_eq_true (show x.getCoarseC ≤ e by omega)
  | coarse => exact hvis

/-- The plain scan hands out the visible entries and what the version blocks hold. -/
theorem AllPublished.mem_forEachEdge (h : s.AllPublished) {d : Nat} :
    d ∈ (s.forEachEdge b ⟨e, intraMax⟩).map EdgeWithIndex.key ↔
      (∃ x ∈ s.buffer ++ s.primary, plain b e x = true ∧ x.key = d) ∨ s.InBlocks b e d := by
  have htvbs : (if b = .fineGrain then s.scanTvbs ⟨e, intraMax⟩ else []) = [] := by
    split_ifs
    · apply List.flatMap_eq_nil_iff.mpr
      intro k hk
      rw [h.published k (List.mem_range.mp hk)]
      split_ifs <;> rfl
    · rfl
  have hitems : (s.items.filter (visible b ⟨e, intraMax⟩)).map Prod.fst =
      (s.buffer ++ s.primary).filter (plain b e) := by
    rw [Traversal.map_fst_items, List.filter_append]
    rfl
  rw [forEachEdge, forEachEdgeWithProperty, htvbs, List.append_nil, List.map_append, hitems,
    List.map_append, List.mem_append]
  apply or_congr
  · simp only [List.mem_map, List.mem_filter, and_assoc]
  · simp only [List.mem_map, InBlocks, exists_exists_and_eq_and]

/-- Two entries of one destination are the same. -/
theorem AllPublished.eq_of_key (h : s.AllPublished) {x y : EdgeWithIndex}
    (hx : x ∈ s.buffer ++ s.primary) (hy : y ∈ s.buffer ++ s.primary) (hkey : x.key = y.key) :
    x = y := by
  have hpair : (s.buffer ++ s.primary).Pairwise fun x y => x.key ≠ y.key :=
    List.pairwise_append.mpr ⟨h.buffer, h.primary.imp fun hlt => hlt.ne,
      fun t ht x hx => (h.disjoint x hx t ht).symm⟩
  exact List.inj_on_of_nodup_map (List.pairwise_map.mpr hpair) hx hy hkey

theorem HandedOut.mem {x : EdgeWithIndex} (h : s.HandedOut e x) : x ∈ s.buffer ++ s.primary := by
  rcases h with ⟨hx, -⟩ | hx
  · exact hx
  · apply List.mem_append_right
    unfold behindBuffer at hx
    split_ifs at hx <;> exact (List.dropWhile_suffix _).subset hx

/-- What is handed out behind the buffer and what the version blocks hold make up for each
other. -/
structure SortedAgrees (b : Build) (s : VertexEdges) (e : Nat) : Prop where
  handedOut : ∀ x, s.HandedOut e x → plain b e x = true ∨ s.InBlocks b e x.key
  inBlocks : ∀ d, s.InBlocks b e d → ∃ x, s.HandedOut e x ∧ x.key = d

/-- for_each_edge_sorted hands out ascending destinations; they are those of the plain scan at the
end of the epoch exactly if every entry handed out that the plain scan refuses has a version in
the version blocks, and every such version has an entry that is handed out. -/
theorem forEachEdgeSorted_iff (h : s.AllPublished) :
    (((s.forEachEdgeSorted S e).map EdgeWithIndex.key).Pairwise (· < ·) ∧
      ∀ d, d ∈ (s.forEachEdgeSorted S e).map EdgeWithIndex.key ↔
        d ∈ (s.forEachEdge b ⟨e, intraMax⟩).map EdgeWithIndex.key) ↔ s.SortedAgrees b e := by
  have hsorted : ∀ d, d ∈ (s.forEachEdgeSorted S e).map EdgeWithIndex.key ↔
      ∃ x, s.HandedOut e x ∧ x.key = d := by
    intro d
    simp only [List.mem_map, mem_forEachEdgeSorted h]
  rw [and_iff_right (forEachEdgeSorted_ascending h)]
  simp only [hsorted, h.mem_forEachEdge]
  constructor
  · intro heq
    refine ⟨fun x hx => ?_, fun d hd => (heq d).mpr (Or.inr hd)⟩
    rcases (heq x.key).mp ⟨x, hx, rfl⟩ with ⟨y, hy, hplain, hkey⟩ | hblocks
    · rw [h.eq_of_key hy hx.mem hkey] at hplain
      exact Or.inl hplain
    · exact Or.inr hblocks
  · intro hagree d
    constructor
    · rintro ⟨x, hx, rfl⟩
      exact (hagree.handedOut x hx).imp_left fun hplain => ⟨x, hx.mem, hplain, rfl⟩
    · rintro (⟨x, hx, hplain, rfl⟩ | hblocks)
      · exact ⟨x, Or.inl ⟨hx, shown_of_plain hplain⟩, rfl⟩
      · exact hagree.inBlocks d hblocks

instance (s : VertexEdges) : Decidable s.AllPublished :=
  decidable_of_iff
    ((s.primary.Pairwise fun x y => x.key < y.key) ∧ (s.buffer.Pairwise fun x y => x.key ≠ y.key) ∧
      (∀ x ∈ s.primary, ∀ t ∈ s.buffer, x.key ≠ t.key) ∧
      (∀ x ∈ s.primary ++ s.buffer, x.e < 2 ^ 64) ∧ ∀ k < 16, (s.tmpVb k).entries = [])
    ⟨fun ⟨h1, h2, h3, h4, h5⟩ => ⟨h1, h2, h3, h4, h5⟩,
      fun ⟨h1, h2, h3, h4, h5⟩ => ⟨h1, h2, h3, h4, h5⟩⟩

/-- The only loaded edge is deleted in epoch 1, and the deletion is published. -/
def deletedSeven : List Op :=
  [.delete History.freshEnv ⟨7, 0, 1, ⟨true, 0, 1, 0⟩,
     Write.seven_lt, Nat.one_pos, Write.one_lt_epoch⟩,
    .transform 1 100]

/-- A reader of epoch 2 is handed the deleted edge by the sorted scan. -/
theorem forEachEdgeSorted_deleted : ∃ h, exec (History.step .fineGrain .stable)
    ⟨.build [7] [3] (fun _ => ⟨0, 0, 0⟩) fun _ => ⟨0, 0, 0⟩, []⟩ deletedSeven = some h ∧
      h.state.AllPublished ∧
      (h.state.forEachEdgeSorted .stable 2).map EdgeWithIndex.key = [7] ∧
      h.state.forEachEdge .fineGrain ⟨2, intraMax⟩ = [] := by
  apply exists_exec
  decide +kernel

/-- At a reader of epoch 0 the version block makes up for the deleted entry. -/
theorem forEachEdgeSorted_iff_deleted : ∃ h, exec (History.step .fineGrain .stable)
    ⟨.build [7] [3] (fun _ => ⟨0, 0, 0⟩) fun _ => ⟨0, 0, 0⟩, []⟩ deletedSeven = some h ∧
      h.state.AllPublished ∧ h.state.SortedAgrees .fineGrain 0 := by
  obtain ⟨h, hrun, hpub, hsorted, hplain⟩ : ∃ h, exec (History.step .fineGrain .stable)
      ⟨.build [7] [3] (fun _ => ⟨0, 0, 0⟩) fun _ => ⟨0, 0, 0⟩, []⟩ deletedSeven = some h ∧
        h.state.AllPublished ∧
        (h.state.forEachEdgeSorted .stable 0).map EdgeWithIndex.key = [7] ∧
        (h.state.forEachEdge .fineGrain ⟨0, intraMax⟩).map EdgeWithIndex.key = [7] := by
    apply exists_exec
    decide +kernel
  refine ⟨h, hrun, hpub, (forEachEdgeSorted_iff hpub (S := .stable)).mp ⟨?_, ?_⟩⟩
  · rw [hsorted]
    exact List.pairwise_singleton _ _
  · rw [hsorted, hplain]
    exact fun _ => Iff.rfl

end VertexEdges

end AVBGraph
