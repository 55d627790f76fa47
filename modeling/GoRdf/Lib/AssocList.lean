import Mathlib.Data.List.Nodup

/-!
# Association Lists

Lookups in a list of pairs, where the first pair with the key counts, and the
pairs a map keeps when each is stored in turn.

## Main definitions

* `lastWins`: The pairs that no later pair overwrites.

## Theorems

* `lookup_cons_eq`: A lookup after one more pair.
* `mem_of_lookup`: What a lookup finds is in the list.
* `lookup_map_pair`: A function written out as a list.
* `lookup_of_mem`: What is in the list is found, where no key is there twice.
* `lookup_injective`: Different values belong to different keys.
* `lastWins_sublist`: What is kept was stored.
-/

namespace GoRdf

open List

namespace Lib

variable {κ υ : Type} [BEq κ] [LawfulBEq κ] [DecidableEq κ]

theorem lookup_cons_eq (k a : κ) (v : υ) (m : List (κ × υ)) :
    ((k, v) :: m).lookup a = if a = k then some v else m.lookup a := by
  rw [lookup_cons]
  by_cases h : a = k
  · simp [h]
  · have hbeq : (a == k) = false := by simpa using h
    rw [hbeq, if_neg h]

omit [DecidableEq κ] in
theorem mem_of_lookup {a : κ} {v : υ} {m : List (κ × υ)} (h : m.lookup a = some v) :
    (a, v) ∈ m := by
  rcases lookup_eq_some_iff.mp h with ⟨l, r, rfl, -⟩
  simp

theorem lookup_map_pair (f : κ → υ) {a : κ} : ∀ {l : List κ}, a ∈ l →
    (l.map fun x => (x, f x)).lookup a = some (f a)
  | x :: l, h => by
    rw [map_cons, lookup_cons_eq]
    by_cases hx : a = x
    · rw [if_pos hx, hx]
    · rw [if_neg hx]
      exact lookup_map_pair f ((mem_cons.mp h).resolve_left hx)

omit [DecidableEq κ] in
theorem exists_lookup {a : κ} {m : List (κ × υ)} (h : a ∈ m.map Prod.fst) :
    ∃ v, m.lookup a = some v := by
  cases hlookup : m.lookup a with
  | some v => exact ⟨v, rfl⟩
  | none =>
    rcases mem_map.mp h with ⟨p, hp, rfl⟩
    have hne := lookup_eq_none_iff.mp hlookup p hp
    simp at hne

omit [DecidableEq κ] in
theorem lookup_of_mem {a : κ} {v : υ} {m : List (κ × υ)} (hnodup : (m.map Prod.fst).Nodup)
    (h : (a, v) ∈ m) : m.lookup a = some v := by
  rcases exists_lookup (mem_map_of_mem (f := Prod.fst) h) with ⟨w, hw⟩
  have heq := inj_on_of_nodup_map hnodup h (mem_of_lookup hw) rfl
  rw [hw, (Prod.mk.inj heq).2]

omit [DecidableEq κ] in
theorem lookup_injective {a b : κ} {v : υ} {m : List (κ × υ)} (hnodup : (m.map Prod.snd).Nodup)
    (ha : m.lookup a = some v) (hb : m.lookup b = some v) : a = b := by
  have heq := inj_on_of_nodup_map hnodup (mem_of_lookup ha) (mem_of_lookup hb) rfl
  exact (Prod.mk.inj heq).1

/-! ## Stored in turn -/

/-- The pairs of a map after each has been stored in turn. -/
def lastWins : List (κ × υ) → List (κ × υ)
  | [] => []
  | e :: es => if es.any fun e' => e'.1 = e.1 then lastWins es else e :: lastWins es

omit [BEq κ] [LawfulBEq κ] in
theorem lastWins_sublist : ∀ es : List (κ × υ), (lastWins es).Sublist es
  | [] => .slnil
  | e :: es => by
    unfold lastWins
    split_ifs
    · exact (lastWins_sublist es).cons e
    · exact (lastWins_sublist es).cons_cons e

end Lib

end GoRdf
