import Mathlib.Data.List.Basic

/-!
# Reading a Text Back off the Front

When two texts start with encodings of two values and agree as wholes, the values
agree and the remainders too, if the encodings are delimited: each has no character
of a stop set in it and is followed by one, or by nothing.

## Main definitions

* `Stops`: A text is empty or starts with a stop character.

## Theorems

* `append_inj_of_stops`: Delimited texts are read back off the front.
-/

namespace GoRdf

open List

namespace Lib

variable {α β : Type*}

/-- The text is empty, or its first character is a stop character. -/
def Stops (stop : α → Bool) (r : List α) : Prop :=
  ∀ c ∈ r.head?, stop c = true

theorem Stops.nil (stop : α → Bool) : Stops stop [] := by
  intro c hc
  simp only [head?_nil, Option.mem_def, reduceCtorEq] at hc

theorem Stops.cons {stop : α → Bool} {c : α} (h : stop c = true) (r : List α) :
    Stops stop (c :: r) := by
  intro d hd
  simp only [head?_cons, Option.mem_def, Option.some.injEq] at hd
  rw [← hd]
  exact h

/-- A text without stop characters is determined by any text that continues it
    at a stop. -/
theorem append_inj_of_stops {stop : α → Bool} {xs ys r₁ r₂ : List α}
    (hxs : ∀ c ∈ xs, stop c = false) (hys : ∀ c ∈ ys, stop c = false)
    (h₁ : Stops stop r₁) (h₂ : Stops stop r₂) (h : xs ++ r₁ = ys ++ r₂) :
    xs = ys ∧ r₁ = r₂ := by
  have htake : ∀ {xs r : List α}, (∀ c ∈ xs, stop c = false) → Stops stop r →
      (xs ++ r).takeWhile (!stop ·) = xs := by
    intro xs r hxs hr
    rw [takeWhile_append_of_pos (by simpa using hxs)]
    cases r with
    | nil => rw [takeWhile_nil, append_nil]
    | cons c r => rw [takeWhile_cons_of_neg (by simp [hr c rfl]), append_nil]
  obtain rfl : xs = ys := by rw [← htake hxs h₁, h, htake hys h₂]
  exact ⟨rfl, append_cancel_left h⟩

theorem toDigits_injective {m n : Nat} (h : Nat.toDigits 10 m = Nat.toDigits 10 n) : m = n := by
  have hread := congrArg (Nat.ofDigitChars 10 · 0) h
  simpa [Nat.ofDigitChars_toDigits] using hread

end Lib

end GoRdf
