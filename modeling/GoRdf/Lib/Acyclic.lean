import Mathlib.Data.Set.Card
import Mathlib.Logic.Relation

/-!
# Definitions Along an Acyclic Relation

Things that refer to each other without a cycle can be ranked, if each leads to
finitely many others. A recursive equation that looks only at what a thing refers
to has then exactly one solution.

## Theorems

* `exists_rank`: A rank that falls along the relation.
* `existsUnique_solution`: The solution of a recursive equation.
-/

namespace GoRdf

open Function

namespace Lib

open Relation

variable {α σ : Type} {r : α → α → Prop}

/-- What `b` leads to `a` leads to as well, and `a` leads to `b` itself. -/
theorem ncard_transGen_lt {a b : α} (hfinite : {b | TransGen r a b}.Finite) (hab : r a b)
    (hb : ¬ TransGen r b b) : {c | TransGen r b c}.ncard < {c | TransGen r a c}.ncard := by
  refine Set.ncard_lt_ncard ⟨fun c hc => TransGen.head hab hc, ?_⟩ hfinite
  intro hsubset
  exact hb (hsubset (TransGen.single hab))

/-- The rank of a thing is the number of things it leads to. -/
theorem exists_rank (hfinite : ∀ a, {b | TransGen r a b}.Finite)
    (hacyclic : ∀ a, ¬ TransGen r a a) : ∃ rank : α → Nat, ∀ a b, r a b → rank b < rank a :=
  ⟨_, fun a b hab => ncard_transGen_lt (hfinite a) hab (hacyclic b)⟩

section

variable {rank : α → Nat} {body : (α → σ) → α → σ}
  (hlocal : ∀ C D a, (∀ b, r a b → C b = D b) → body C a = body D a)
  (hrank : ∀ a b, r a b → rank b < rank a)

include hlocal hrank

/-- Past the rank of a thing, neither the start nor one more unfolding of the equation
    changes anything. -/
theorem iterate_body_eq {start start' : α → σ} : ∀ {m n : Nat} {a : α}, rank a < m → rank a < n →
    body^[m] start a = body^[n] start' a
  | 0, _, _, hm, _ | _, 0, _, _, hm => by omega
  | m + 1, n + 1, a, hm, hn => by
    rw [iterate_succ_apply', iterate_succ_apply']
    refine hlocal _ _ a ?_
    intro b hb
    have hlt := hrank a b hb
    exact iterate_body_eq (by omega) (by omega)

/-- The equation has a solution, and only one. -/
theorem existsUnique_solution [Nonempty σ] : ∃! C : α → σ, ∀ a, C a = body C a := by
  rcases ‹Nonempty σ› with ⟨x⟩
  let start : α → σ := fun _ => x
  refine ⟨fun a => body^[rank a + 1] start a, ?_, ?_⟩
  · intro a
    dsimp only
    rw [iterate_succ_apply']
    refine hlocal _ _ a ?_
    intro b hb
    have hlt := hrank a b hb
    exact iterate_body_eq hlocal hrank (by omega) (by omega)
  · intro D hD
    -- A solution may be its own start.
    have hfixed : body D = D := funext fun a => (hD a).symm
    funext a
    rw [← iterate_fixed hfixed (rank a + 1)]
    exact iterate_body_eq hlocal hrank (Nat.lt_succ_self _) (Nat.lt_succ_self _)

end

end Lib

end GoRdf
