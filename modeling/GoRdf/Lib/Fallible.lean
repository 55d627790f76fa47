import Mathlib.Data.List.Forall2
import Mathlib.Data.List.Nodup

/-!
# Loops that May Fail

A loop over a list whose body may fail. It fails if some step does, and
otherwise it has one result for every element.

## Theorems

* `mapM_ok`: If no step fails the loop has a result for each element.
* `mapM_error`: If some step fails the loop does.
* `mem_results_iff`, `nodup_results`: What is known of the results.

The second half is about loops that gather findings, where the body may run out
of fuel. What matters of the findings is whether there are any. A loop that stops
early does not run its body on the elements after that, so nothing is asked of the
body there.

* `gather_spec`, `allM_spec`, `anyM_spec`, `countM_spec`: What a loop says, given
  what its body says.
-/

namespace GoRdf

open List

namespace Lib

variable {α β ε : Type} {f : α → Except ε β}

theorem mapM_cons_ok {x : α} {y : β} (h : f x = .ok y) (xs : List α) :
    (x :: xs).mapM f = (xs.mapM f).map (y :: ·) := by
  rw [mapM_cons, h]
  cases xs.mapM f <;> rfl

theorem mapM_ok (f : α → Except ε β) (xs : List α) (h : ∀ x ∈ xs, ∃ y, f x = .ok y) :
    ∃ ys, xs.mapM f = .ok ys ∧ List.Forall₂ (fun x y => f x = .ok y) xs ys := by
  induction xs with
  | nil => exact ⟨[], rfl, List.Forall₂.nil⟩
  | cons x xs ih =>
    obtain ⟨y, hy⟩ := h x mem_cons_self
    obtain ⟨ys, hys, hall⟩ := ih fun x hx => h x (mem_cons_of_mem _ hx)
    exact ⟨y :: ys, by rw [mapM_cons_ok hy, hys]; rfl, List.Forall₂.cons hy hall⟩

theorem mapM_error (f : α → Except ε β) (xs : List α) (h : ∃ x ∈ xs, ∃ e, f x = .error e) :
    ∃ e, xs.mapM f = .error e := by
  induction xs with
  | nil =>
    obtain ⟨x, hx, -⟩ := h
    cases hx
  | cons x xs ih =>
    cases hx : f x with
    | error e => exact ⟨e, by rw [mapM_cons, hx]; rfl⟩
    | ok y =>
      obtain ⟨z, hz, e, he⟩ := h
      rcases mem_cons.mp hz with rfl | hz
      · exact absurd (hx.symm.trans he) (by simp)
      · obtain ⟨e, he⟩ := ih ⟨z, hz, e, he⟩
        exact ⟨e, by rw [mapM_cons_ok hx, he]; rfl⟩

/-- The results are those of the elements, and no others. -/
theorem mem_results_iff {xs : List α} {ys : List β}
    (h : List.Forall₂ (fun x y => f x = .ok y) xs ys) {y : β} :
    y ∈ ys ↔ ∃ x ∈ xs, f x = .ok y := by
  induction h with
  | nil => simp
  | @cons x y' xs ys hx hall ih =>
    rw [mem_cons, ih, exists_mem_cons_iff, hx, Except.ok.injEq, eq_comm]

/-- Results are distinct if elements that are told apart have different ones. -/
theorem nodup_results {κ : Type} {key : α → κ} {xs : List α} {ys : List β}
    (h : List.Forall₂ (fun x y => f x = .ok y) xs ys) (hnodup : (xs.map key).Nodup)
    (hkey : ∀ x ∈ xs, ∀ x' ∈ xs, ∀ y, f x = .ok y → f x' = .ok y → key x = key x') :
    ys.Nodup := by
  induction h with
  | nil => exact nodup_nil
  | @cons x y xs ys hx hall ih =>
    rw [map_cons, nodup_cons] at hnodup
    refine nodup_cons.mpr ⟨fun hmem => ?_, ih hnodup.2 fun x hx x' hx' =>
      hkey x (mem_cons_of_mem _ hx) x' (mem_cons_of_mem _ hx')⟩
    obtain ⟨x', hx', hy⟩ := (mem_results_iff hall).mp hmem
    refine hnodup.1 (mem_map.mpr ⟨x', hx', ?_⟩)
    exact (hkey x mem_cons_self x' (mem_cons_of_mem _ hx') y hx hy).symm

/-! ## Loops over checks -/

/-- The findings of a loop, after those in `acc`. In a quick run it stops as soon
    as there is one. -/
def gather {α β : Type} (quick : Bool) (f : α → Option (List β)) :
    List α → List β → Option (List β)
  | [], acc => some acc
  | x :: xs, acc =>
    (f x).bind fun found =>
      if quick && !(acc ++ found).isEmpty then some (acc ++ found)
      else gather quick f xs (acc ++ found)

/-- How many elements a check accepts. -/
def countM {α : Type} (p : α → Option Bool) : List α → Option Nat
  | [] => some 0
  | x :: xs => (p x).bind fun b => (countM p xs).map fun n => if b then n + 1 else n

section

variable {α β : Type} {P : α → Prop}

/-- A loop that goes on as long as `P` holds comes to an element. -/
inductive ReachedWhile (P : α → Prop) : List α → α → Prop
  | head {x : α} {xs : List α} : ReachedWhile P (x :: xs) x
  | tail {x y : α} {xs : List α} : P y → ReachedWhile P xs x → ReachedWhile P (y :: xs) x

theorem ReachedWhile.mem {xs : List α} {x : α} (h : ReachedWhile P xs x) : x ∈ xs := by
  induction h with
  | head => exact mem_cons_self
  | tail _ _ ih => exact mem_cons_of_mem _ ih

theorem ReachedWhile.of_map {f : β → α} {xs : List β} {y : α}
    (h : ReachedWhile P (xs.map f) y) : ∃ x, ReachedWhile (fun x => P (f x)) xs x ∧ f x = y := by
  induction xs with
  | nil => cases h
  | cons x xs ih =>
    cases h with
    | head => exact ⟨x, .head, rfl⟩
    | tail hx h =>
      rcases ih h with ⟨x', hx', heq⟩
      exact ⟨x', .tail hx hx', heq⟩

/-- Only elements that are reached need an answer: with `quick` the first finding ends the loop. -/
theorem gather_spec (quick : Bool) {f : α → Option (List β)} : ∀ {xs : List α} (acc : List β),
    (∀ x, ReachedWhile (fun x => quick = true → P x) xs x →
      ∃ found, f x = some found ∧ (found = [] ↔ P x)) →
    ∃ all, gather quick f xs acc = some all ∧ (all = [] ↔ acc = [] ∧ ∀ x ∈ xs, P x)
  | [], acc, _ => ⟨acc, rfl, by simp⟩
  | x :: xs, acc, h => by
    rcases h x .head with ⟨found, hf, hfound⟩
    rw [gather, hf, Option.bind_some]
    split_ifs with hstop
    · -- A quick run stops with a finding, so this is not the empty answer.
      refine ⟨acc ++ found, rfl, ?_⟩
      have hne : acc ++ found ≠ [] := by
        simp only [Bool.and_eq_true, Bool.not_eq_true', isEmpty_eq_false_iff] at hstop
        exact hstop.2
      rw [forall_mem_cons, ← hfound, ← and_assoc, ← append_eq_nil_iff]
      exact ⟨fun hnil => absurd hnil hne, fun hnil => absurd hnil.1 hne⟩
    · have hgoes : quick = true → P x := by
        rintro rfl
        simp only [Bool.true_and, Bool.not_eq_true', Bool.not_eq_false, List.isEmpty_iff,
          append_eq_nil_iff] at hstop
        exact hfound.mp hstop.2
      rcases gather_spec quick (acc ++ found) (fun y hy => h y (.tail hgoes hy)) with
        ⟨all, hall, hiff⟩
      refine ⟨all, hall, ?_⟩
      rw [hiff, forall_mem_cons, ← hfound, append_eq_nil_iff, and_assoc]

theorem allM_spec {p : α → Option Bool} : ∀ {xs : List α},
    (∀ x, ReachedWhile P xs x → ∃ b, p x = some b ∧ (b = true ↔ P x)) →
    ∃ b, xs.allM p = some b ∧ (b = true ↔ ∀ x ∈ xs, P x)
  | [], _ => ⟨true, rfl, by simp⟩
  | x :: xs, h => by
    rcases h x .head with ⟨b, hb, hbP⟩
    rw [forall_mem_cons, ← hbP]
    cases b with
    | false => exact ⟨false, by simp [List.allM, hb], by simp⟩
    | true =>
      rcases allM_spec fun y hy => h y (.tail (hbP.mp rfl) hy) with ⟨c, hc, hcP⟩
      exact ⟨c, by simp [List.allM, hb, hc], by simp [hcP]⟩

theorem anyM_spec {p : α → Option Bool} : ∀ {xs : List α},
    (∀ x, ReachedWhile (fun x => ¬ P x) xs x → ∃ b, p x = some b ∧ (b = true ↔ P x)) →
    ∃ b, xs.anyM p = some b ∧ (b = true ↔ ∃ x ∈ xs, P x)
  | [], _ => ⟨false, rfl, by simp⟩
  | x :: xs, h => by
    rcases h x .head with ⟨b, hb, hbP⟩
    rw [exists_mem_cons_iff, ← hbP]
    cases b with
    | true => exact ⟨true, by simp [List.anyM, hb], by simp⟩
    | false =>
      have hgoes : ¬ P x := by
        rw [← hbP]
        exact Bool.false_ne_true
      rcases anyM_spec fun y hy => h y (.tail hgoes hy) with ⟨c, hc, hcP⟩
      exact ⟨c, by simp [List.anyM, hb, hc], by simp [hcP]⟩

open Classical in
theorem countM_spec {p : α → Option Bool} : ∀ {xs : List α},
    (∀ x ∈ xs, ∃ b, p x = some b ∧ (b = true ↔ P x)) →
    countM p xs = some (xs.filter fun x => P x).length
  | [], _ => rfl
  | x :: xs, h => by
    rcases h x mem_cons_self with ⟨b, hb, hbP⟩
    have hrest := countM_spec fun y hy => h y (mem_cons_of_mem _ hy)
    rw [countM, hb, Option.bind_some, hrest, Option.map_some]
    by_cases hP : P x
    · simp [hP, hbP.mpr hP]
    · have hfalse : b = false := by
        simpa using mt hbP.mp hP
      simp [hP, hfalse]

end

end Lib

end GoRdf
