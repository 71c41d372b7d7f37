import Mathlib.Data.List.Basic
import Mathlib.Logic.Function.Basic

namespace AVBGraph.Framework

variable {σ α β : Type*}

/-- How the body of a loop goes on: with the next element, behind the loop, or out of the
function. -/
inductive Flow
  | next
  | leave
  | exit
  deriving DecidableEq

/-- A loop over a list; the flag tells that its body returned from the function. -/
def loop (body : σ → α → σ × Flow) : σ → List α → σ × Bool
  | acc, [] => (acc, false)
  | acc, x :: xs =>
    match body acc x with
    | (acc, .next) => loop body acc xs
    | (acc, .leave) => (acc, false)
    | (acc, .exit) => (acc, true)

/-- The next statement of a function, unless it returned. -/
def thenDo (r : σ × Bool) (k : σ → σ × Bool) : σ × Bool := if r.2 then r else k r.1

/-- A callback takes the elements of a list until it asks to stop. -/
def feed (callback : σ → α → σ × Bool) : σ → List α → σ × Bool
  | acc, [] => (acc, false)
  | acc, x :: xs => thenDo (callback acc x) fun acc => feed callback acc xs

/-- The call of a callback as the body of a loop. -/
def call (r : σ × Bool) : σ × Flow := (r.1, if r.2 then .exit else .next)

/-- The shortest prefix that ends with a hit, the whole list when there is none. -/
def upTo (p : α → Bool) : List α → List α
  | [] => []
  | x :: xs => if p x then [x] else x :: upTo p xs

@[simp] theorem thenDo_true (acc : σ) (k : σ → σ × Bool) : thenDo (acc, true) k = (acc, true) := rfl

@[simp] theorem thenDo_false (acc : σ) (k : σ → σ × Bool) : thenDo (acc, false) k = k acc := rfl

theorem thenDo_assoc (r : σ × Bool) (k l : σ → σ × Bool) :
    thenDo (thenDo r k) l = thenDo r fun acc => thenDo (k acc) l := by
  obtain ⟨acc, returned⟩ := r
  cases returned <;> rfl

theorem feed_append (callback : σ → α → σ × Bool) (acc : σ) (xs ys : List α) :
    feed callback acc (xs ++ ys) =
      thenDo (feed callback acc xs) fun acc => feed callback acc ys := by
  induction xs generalizing acc with
  | nil => rfl
  | cons x xs ih =>
    rw [List.cons_append, feed, feed, thenDo_assoc]
    congr 1
    funext acc
    exact ih acc

theorem feed_map (callback : σ → β → σ × Bool) (f : α → β) (acc : σ) (xs : List α) :
    feed callback acc (xs.map f) = feed (fun acc x => callback acc (f x)) acc xs := by
  induction xs generalizing acc with
  | nil => rfl
  | cons x xs ih =>
    rw [List.map_cons, feed, feed]
    congr 1
    funext acc
    exact ih acc

section Loop

variable {body : σ → α → σ × Flow} {acc acc' : σ} {x : α} {xs : List α}

theorem loop_next (h : body acc x = (acc', .next)) :
    loop body acc (x :: xs) = loop body acc' xs := by
  rw [loop, h]

theorem loop_leave (h : body acc x = (acc', .leave)) : loop body acc (x :: xs) = (acc', false) := by
  rw [loop, h]

theorem loop_call {r : σ × Bool} (h : body acc x = call r) :
    loop body acc (x :: xs) = thenDo r fun acc => loop body acc xs := by
  obtain ⟨acc', returned⟩ := r
  rw [loop, h]
  cases returned <;> rfl

theorem loop_cons_call (f : σ → α → σ × Bool) (acc : σ) (x : α) (xs : List α) :
    loop (fun acc x => call (f acc x)) acc (x :: xs) =
      thenDo (f acc x) fun acc => loop (fun acc x => call (f acc x)) acc xs :=
  loop_call rfl

end Loop

section Body

variable (callback : σ → α → σ × Bool)

/-- A body that passes over the elements without a property. -/
theorem loop_filter (p : α → Bool) (acc : σ) (xs : List α) :
    loop (fun acc x => if p x then call (callback acc x) else (acc, .next)) acc xs =
      feed callback acc (xs.filter p) := by
  induction xs generalizing acc with
  | nil => rfl
  | cons x xs ih =>
    by_cases hp : p x = true
    · rw [loop_call (if_pos hp), List.filter_cons_of_pos hp, feed]
      congr 1
      funext acc
      exact ih acc
    · rw [loop_next (if_neg hp), List.filter_cons_of_neg hp]
      exact ih acc

/-- A body that leaves the loop at the first element without a property. -/
theorem loop_takeWhile (p : α → Bool) (acc : σ) (xs : List α) :
    loop (fun acc x => if p x then call (callback acc x) else (acc, .leave)) acc xs =
      feed callback acc (xs.takeWhile p) := by
  induction xs generalizing acc with
  | nil => rfl
  | cons x xs ih =>
    by_cases hp : p x = true
    · rw [loop_call (if_pos hp), List.takeWhile_cons_of_pos hp, feed]
      congr 1
      funext acc
      exact ih acc
    · rw [loop_leave (if_neg hp), List.takeWhile_cons_of_neg hp]
      rfl

/-- A loop inside a loop. -/
theorem loop_flatMap (f : β → List α) (acc : σ) (ys : List β) :
    loop (fun acc y => call (feed callback acc (f y))) acc ys =
      feed callback acc (ys.flatMap f) := by
  induction ys generalizing acc with
  | nil => rfl
  | cons y ys ih =>
    rw [loop_cons_call, List.flatMap_cons, feed_append]
    congr 1
    funext acc
    exact ih acc

end Body

/-- A callback that never stops takes the whole list. -/
theorem feed_foldl (f : σ → α → σ) (acc : σ) (xs : List α) :
    feed (fun acc x => (f acc x, false)) acc xs = (xs.foldl f acc, false) := by
  induction xs generalizing acc with
  | nil => rfl
  | cons x xs ih => exact ih (f acc x)

theorem loop_filter_foldl (f : σ → α → σ) (p : α → Bool) (acc : σ) (xs : List α) :
    (loop (fun acc x => if p x then (f acc x, Flow.next) else (acc, .next)) acc xs).1 =
      (xs.filter p).foldl f acc := by
  have h := loop_filter (fun acc x => (f acc x, false)) p acc xs
  rw [feed_foldl] at h
  exact congrArg Prod.fst h

theorem loop_takeWhile_foldl (f : σ → α → σ) (p : α → Bool) (acc : σ) (xs : List α) :
    (loop (fun acc x => if p x then (f acc x, Flow.next) else (acc, .leave)) acc xs).1 =
      (xs.takeWhile p).foldl f acc := by
  have h := loop_takeWhile (fun acc x => (f acc x, false)) p acc xs
  rw [feed_foldl] at h
  exact congrArg Prod.fst h

/-- The elements on which a predicate is called. -/
theorem feed_calls (p : α → Bool) (acc xs : List α) :
    feed (fun calls x => (calls ++ [x], p x)) acc xs = (acc ++ upTo p xs, xs.any p) := by
  induction xs generalizing acc with
  | nil => rw [upTo, List.append_nil]; rfl
  | cons x xs ih =>
    rw [feed, upTo, List.any_cons]
    cases hp : p x with
    | true => rfl
    | false =>
      rw [thenDo_false, ih]
      simp

theorem upTo_spec (p : α → Bool) (xs : List α) :
    ∃ rest, xs = upTo p xs ++ rest ∧
      ((rest = [] ∧ ∀ x ∈ xs, p x = false) ∨
        ∃ ys x, upTo p xs = ys ++ [x] ∧ p x = true ∧ ∀ y ∈ ys, p y = false) := by
  induction xs with
  | nil => exact ⟨[], rfl, Or.inl ⟨rfl, by simp⟩⟩
  | cons x xs ih =>
    by_cases hx : p x = true
    · rw [upTo, if_pos hx]
      exact ⟨xs, rfl, Or.inr ⟨[], x, rfl, hx, by simp⟩⟩
    · rw [upTo, if_neg hx]
      have hfalse : p x = false := by simpa using hx
      obtain ⟨rest, hxs, hrest⟩ := ih
      refine ⟨rest, by rw [List.cons_append, ← hxs], ?_⟩
      rcases hrest with ⟨hnil, hnone⟩ | ⟨ys, z, hys, hz, hnone⟩
      · exact Or.inl ⟨hnil, List.forall_mem_cons.mpr ⟨hfalse, hnone⟩⟩
      · exact Or.inr ⟨x :: ys, z, by rw [hys, List.cons_append], hz,
          List.forall_mem_cons.mpr ⟨hfalse, hnone⟩⟩

end AVBGraph.Framework
