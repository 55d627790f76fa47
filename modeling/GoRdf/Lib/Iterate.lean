import Mathlib.Data.List.Basic

/-!
# Iteration with Early Exit

A push iterator hands its elements to a `yield` callback one by one and stops
as soon as the callback answers `false`. The callback may change what it
closes over, so it is a function of a state as well, and the iterator returns
whether it ran to the end together with the state it left behind.

Iterators are compared with a list. An iterator *lists* `xs` when driving any
callback through it from any state is the loop over `xs`; nesting, filtering
and concatenating iterators is then nesting, filtering and concatenating
lists, and what a stopping consumer sees is a prefix.

## Main definitions

* `forEach`: The loop over a list.
* `Lists`: An iterator that agrees with the loop over a list.
* `takeInto`: The consumer that keeps the first elements and then stops.

## Theorems

* `forEach_append`, `forEach_flatMap`, `forEach_filter`: Loops over composite lists.
* `forEach_collect`: A consumer that never stops sees every element.
* `forEach_takeInto`: One that stops after `n` elements sees the first `n`.
-/

namespace GoRdf

open List

namespace Lib

variable {α β σ : Type*}

/-- The loop `for _, x := range xs { if !yield(x) { return false } }; return true`. -/
def forEach (yield : α → σ → Bool × σ) : List α → σ → Bool × σ
  | [], s => (true, s)
  | x :: xs, s =>
    match yield x s with
    | (true, s') => forEach yield xs s'
    | (false, s') => (false, s')

/-- The iterator behaves as the loop over `xs`, whatever the consumer does. -/
def Lists (iter : (α → σ → Bool × σ) → σ → Bool × σ) (xs : List α) : Prop :=
  ∀ yield s, iter yield s = forEach yield xs s

/-- What a loop gathers: what was there before and what each element brings. -/
theorem foldl_iff {M : σ → Prop} {P : α → Prop} {f : σ → α → σ}
    (hstep : ∀ s x, M (f s x) ↔ M s ∨ P x) (xs : List α) (s : σ) :
    M (xs.foldl f s) ↔ M s ∨ ∃ x ∈ xs, P x := by
  induction xs generalizing s with
  | nil => simp
  | cons x xs ih => rw [foldl_cons, ih, hstep, exists_mem_cons_iff, or_assoc]

/-- Adding an element that may be there already. -/
theorem mem_addNew [DecidableEq α] {x y : α} {l : List α} :
    y ∈ (if x ∈ l then l else l ++ [x]) ↔ y ∈ l ∨ y = x := by
  split
  · rename_i hx
    refine ⟨.inl, fun h => h.elim id ?_⟩
    rintro rfl
    exact hx
  · rw [mem_append, mem_singleton]

theorem mem_foldl_addNew [DecidableEq α] {y : α} {xs l : List α} :
    y ∈ xs.foldl (fun l x => if x ∈ l then l else l ++ [x]) l ↔ y ∈ l ∨ y ∈ xs := by
  rw [foldl_iff (M := (y ∈ ·)) fun l x => mem_addNew (x := x) (l := l), exists_eq_right']

@[simp] theorem forEach_nil (yield : α → σ → Bool × σ) (s : σ) :
    forEach yield [] s = (true, s) := rfl

theorem forEach_cons (yield : α → σ → Bool × σ) (x : α) (xs : List α) (s : σ) :
    forEach yield (x :: xs) s =
      if (yield x s).1 then forEach yield xs (yield x s).2 else (false, (yield x s).2) := by
  rw [forEach]
  rcases yield x s with ⟨_ | _, s'⟩ <;> rfl

@[simp] theorem forEach_singleton (yield : α → σ → Bool × σ) (x : α) (s : σ) :
    forEach yield [x] s = yield x s := by
  rw [forEach_cons]
  rcases yield x s with ⟨_ | _, s'⟩ <;> rfl

theorem forEach_append (yield : α → σ → Bool × σ) (xs ys : List α) (s : σ) :
    forEach yield (xs ++ ys) s =
      if (forEach yield xs s).1 then forEach yield ys (forEach yield xs s).2
      else (false, (forEach yield xs s).2) := by
  induction xs generalizing s with
  | nil => rfl
  | cons x xs ih =>
    rw [cons_append, forEach_cons, forEach_cons]
    -- Both loops take the same first step; they part only if it stops.
    split
    · exact ih _
    · rfl

/-- A loop whose body runs an inner loop is the loop over the concatenation. -/
theorem forEach_flatMap (yield : β → σ → Bool × σ) (f : α → List β) (xs : List α) (s : σ) :
    forEach (fun x => forEach yield (f x)) xs s = forEach yield (xs.flatMap f) s := by
  induction xs generalizing s with
  | nil => rfl
  | cons x xs ih =>
    rw [forEach_cons, flatMap_cons, forEach_append]
    split
    · exact ih _
    · rfl

/-- Two callbacks that agree on the elements of the list drive the same loop. -/
theorem forEach_congr {yield yield' : α → σ → Bool × σ} {xs : List α}
    (h : ∀ x ∈ xs, ∀ s, yield x s = yield' x s) (s : σ) :
    forEach yield xs s = forEach yield' xs s := by
  induction xs generalizing s with
  | nil => rfl
  | cons x xs ih =>
    rw [forEach_cons, forEach_cons, h x mem_cons_self]
    rw [ih (fun y hy => h y (mem_cons_of_mem _ hy))]

/-- A loop whose body is itself an iterator over `f x`. -/
theorem forEach_lists {iter : α → (β → σ → Bool × σ) → σ → Bool × σ} {f : α → List β}
    {xs : List α} (h : ∀ x ∈ xs, Lists (iter x) (f x)) :
    Lists (fun yield => forEach (fun x => iter x yield) xs) (xs.flatMap f) := by
  intro yield s
  rw [← forEach_flatMap]
  exact forEach_congr (fun x hx s => h x hx yield s) s

theorem forEach_map (yield : β → σ → Bool × σ) (f : α → β) (xs : List α) (s : σ) :
    forEach (fun x => yield (f x)) xs s = forEach yield (xs.map f) s := by
  induction xs generalizing s with
  | nil => rfl
  | cons x xs ih =>
    rw [map_cons, forEach_cons, forEach_cons, ih]

/-- Skipping elements inside the callback is looping over the others. -/
theorem forEach_filter (yield : α → σ → Bool × σ) (p : α → Bool) (xs : List α) (s : σ) :
    forEach (fun x s => if p x then yield x s else (true, s)) xs s =
      forEach yield (xs.filter p) s := by
  induction xs generalizing s with
  | nil => rfl
  | cons x xs ih =>
    rw [forEach_cons, filter_cons]
    split
    · rw [forEach_cons, ih]
    · exact ih s

/-- A callback that skips what a partial function has no answer for loops over
    the answers. -/
theorem forEach_filterMap (yield : β → σ → Bool × σ) (f : α → Option β) (xs : List α) (s : σ) :
    forEach
        (fun x s =>
          match f x with
          | none => (true, s)
          | some y => yield y s)
        xs s =
      forEach yield (xs.filterMap f) s := by
  induction xs generalizing s with
  | nil => rfl
  | cons x xs ih =>
    rw [forEach_cons]
    cases hx : f x with
    | none => rw [filterMap_cons_none hx, if_pos rfl, ih]
    | some y => rw [filterMap_cons_some hx, forEach_cons, ih]

/-- A callback that raises a flag finds it raised unless it was never called. -/
theorem forEach_flag (yield : α → σ → Bool × σ) (xs : List α) (s : σ) (flag : Bool) :
    forEach (fun x st => ((yield x st.1).1, (yield x st.1).2, true)) xs (s, flag) =
      ((forEach yield xs s).1, (forEach yield xs s).2, flag || !xs.isEmpty) := by
  induction xs generalizing s flag with
  | nil =>
    rw [forEach_nil, forEach_nil, isEmpty_nil, Bool.not_true, Bool.or_false]
  | cons x xs ih =>
    rw [forEach_cons, forEach_cons, isEmpty_cons, Bool.not_false, Bool.or_true]
    split
    · rw [ih, Bool.true_or]
    · rfl

/-! ## Consumers -/

/-- The consumer that appends what it is handed and never stops. -/
def collect (x : α) (acc : List α) : Bool × List α :=
  (true, acc ++ [x])

theorem forEach_collect (xs acc : List α) : forEach collect xs acc = (true, acc ++ xs) := by
  induction xs generalizing acc with
  | nil => rw [forEach_nil, append_nil]
  | cons x xs ih =>
    have hstep : collect x acc = (true, acc ++ [x]) := rfl
    rw [forEach_cons, hstep, if_pos rfl, ih, append_assoc, singleton_append]

/-- The consumer that appends what it is handed and stops once it holds `n`
    elements. -/
def takeInto (n : Nat) (x : α) (acc : List α) : Bool × List α :=
  (decide ((acc ++ [x]).length < n), acc ++ [x])

/-- A consumer that stops at `n` elements is left with the first `n`, and the
    iterator reports that it did not run to the end exactly when there were
    that many. -/
theorem forEach_takeInto (n : Nat) (xs acc : List α) (hacc : acc.length < n) :
    forEach (takeInto n) xs acc =
      (decide (acc.length + xs.length < n), acc ++ xs.take (n - acc.length)) := by
  induction xs generalizing acc with
  | nil => simp [hacc]
  | cons x xs ih =>
    have hlen : (acc ++ [x]).length = acc.length + 1 := by simp
    rw [forEach_cons, takeInto]
    by_cases hn : acc.length + 1 < n
    · -- Room is left: the rest of the loop runs from the longer accumulator.
      have hsub : n - acc.length = n - (acc.length + 1) + 1 := by omega
      rw [if_pos (by simpa [hlen] using hn), ih _ (by rw [hlen]; exact hn), hlen, hsub,
        take_succ_cons, length_cons]
      have hsum : acc.length + 1 + xs.length = acc.length + (xs.length + 1) := by omega
      rw [hsum, append_assoc, singleton_append]
    · -- This element fills the accumulator.
      have hsub : n - acc.length = 1 := by omega
      rw [if_neg (by simpa [hlen] using hn), hsub, take_succ_cons, take_zero]
      have hfull : ¬ acc.length + (x :: xs).length < n := by
        rw [length_cons]
        omega
      rw [decide_eq_false hfull]

end Lib

end GoRdf
