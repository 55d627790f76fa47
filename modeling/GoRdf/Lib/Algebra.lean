import GoRdf.Lib.Maps

/-!
# Left Joins and Differences of Bags of Partial Maps

The operators of the algebra of solutions besides the join. Each works on the
maps of its left argument one by one, which is what a loop over them needs to
know.

## Main definitions

* `leftJoin`: The join under a condition, and the maps that find no partner.
* `difference`: The maps that agree with no map they share a key with.

## Theorems

* `leftJoin_bind`, `leftJoin_singleton`: A left join, map by map.
* `coe_map_union_eq_join`: The loop over the compatible maps computes the join.
-/

namespace GoRdf

open Multiset

namespace Lib

open Classical

variable {κ υ : Type*} [DecidableEq κ]

/-- The join of two bags under a condition, together with the maps of the left
    bag that find no partner. -/
noncomputable def leftJoin (cond : PMap κ υ → Prop) (A B : Multiset (PMap κ υ)) :
    Multiset (PMap κ υ) :=
  (join A B).filter cond + A.filter fun a => ∀ b ∈ B, Compat a b → ¬ cond (a ∪ b)

/-- The maps of the left bag that agree with no map of the right bag that has a
    key in common with them. -/
noncomputable def difference (A B : Multiset (PMap κ υ)) : Multiset (PMap κ υ) :=
  A.filter fun a => ∀ b ∈ B, ¬ ((∃ k, k ∈ a ∧ k ∈ b) ∧ Compat a b)

/-- A left join works on its left bag map by map. -/
theorem leftJoin_bind (cond : PMap κ υ → Prop) (A B : Multiset (PMap κ υ)) :
    leftJoin cond A B = A.bind fun a => leftJoin cond {a} B := by
  have hjoin : (join A B).filter cond = A.bind fun a => (join {a} B).filter cond := by
    rw [join_bind, filter_bind]
  have hleft : ∀ (P : PMap κ υ → Prop) [DecidablePred P],
      A.filter P = A.bind fun a => ({a} : Multiset _).filter P := by
    intro P _
    rw [← filter_bind, bind_singleton, map_id']
  rw [leftJoin, hjoin, hleft, ← bind_add]
  rfl

theorem join_singleton_filter_eq_zero (cond : PMap κ υ → Prop) (a : PMap κ υ)
    (B : Multiset (PMap κ υ)) :
    (join {a} B).filter cond = 0 ↔ ∀ b ∈ B, Compat a b → ¬ cond (a ∪ b) := by
  rw [filter_eq_nil]
  constructor
  · intro h b hb hab
    exact h _ (mem_join.mpr ⟨a, mem_singleton_self a, b, hb, hab, rfl⟩)
  · intro h c hc
    obtain ⟨a', ha', b, hb, hab, rfl⟩ := mem_join.mp hc
    rw [mem_singleton.mp ha'] at hab ⊢
    exact h b hb hab

/-- One map on the left: its partners, or the map itself if it has none. -/
theorem leftJoin_singleton (cond : PMap κ υ → Prop) (a : PMap κ υ) (B : Multiset (PMap κ υ)) :
    leftJoin cond {a} B =
      if (join {a} B).filter cond = 0 then {a} else (join {a} B).filter cond := by
  have hzero := join_singleton_filter_eq_zero cond a B
  rw [leftJoin]
  by_cases h : (join {a} B).filter cond = 0
  · rw [if_pos h, h, zero_add, filter_singleton, if_pos (hzero.mp h)]
  · rw [if_neg h, filter_singleton, if_neg fun hall => h (hzero.mpr hall)]
    exact add_zero _

/-- The loop over the maps that are compatible with one map computes the join. -/
theorem coe_map_union_eq_join (a : PMap κ υ) (l : List (PMap κ υ)) (p : PMap κ υ → Bool)
    (hp : ∀ b, p b = true ↔ Compat a b) :
    ((l.filter p).map fun b => b ∪ a : List (PMap κ υ)) = join {a} (l : Multiset (PMap κ υ)) := by
  rw [join_singleton_left]
  induction l with
  | nil => rfl
  | cons b l ih =>
    rw [← cons_coe, cons_bind, ← ih, List.filter_cons, joined]
    by_cases hb : Compat a b
    · rw [if_pos ((hp b).mpr hb), if_pos hb, List.map_cons, ← cons_coe,
        union_comm_of_compat hb, singleton_add]
    · rw [if_neg (fun h => hb ((hp b).mp h)), if_neg hb, zero_add]

end Lib

end GoRdf
