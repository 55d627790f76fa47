import Mathlib.Data.Finmap
import Mathlib.Data.Multiset.Bind

/-!
# Partial Maps and Their Joins

Finite partial maps with values in one type, and the natural join of two bags
of them: a map of the one with a map of the other wherever they agree on the
keys they share.

Joining is commutative and associative, multiplicities included. That is what
allows a conjunction to be evaluated in any order.

## Main definitions

* `Compat`: Two maps agree on the keys they share.
* `Extends`: The second map has every entry of the first.
* `join`: The natural join of two bags.
* `Grows`, `Lifts`, `Restricts`: Partial functions that add entries, and how they
  relate to being started with more of them.

## Theorems

* `union_comm_of_compat`: Compatible maps can be merged either way.
* `join_comm`, `join_assoc`: The order of joins does not matter.
-/

namespace GoRdf

open Option Finmap Multiset

namespace Lib

variable {κ υ : Type*} [DecidableEq κ]

/-- A finite partial map. -/
abbrev PMap (κ υ : Type*) := Finmap fun _ : κ => υ

section

variable {a b c : PMap κ υ}

theorem lookup_union (a b : PMap κ υ) (k : κ) :
    (a ∪ b).lookup k = (a.lookup k).or (b.lookup k) := by
  by_cases hk : k ∈ a
  · obtain ⟨x, hx⟩ := mem_iff.mp hk
    rw [lookup_union_left hk, hx, some_or]
  · rw [lookup_union_right hk, lookup_eq_none.mpr hk, none_or]

/-- The maps agree on the keys they share. -/
def Compat (a b : PMap κ υ) : Prop :=
  ∀ k x y, a.lookup k = some x → b.lookup k = some y → x = y

theorem Compat.symm (h : Compat a b) : Compat b a :=
  fun k x y hx hy => (h k y x hy hx).symm

theorem compat_comm : Compat a b ↔ Compat b a :=
  ⟨Compat.symm, Compat.symm⟩

/-- Compatible maps can be merged either way. -/
theorem union_comm_of_compat (h : Compat a b) : a ∪ b = b ∪ a := by
  refine ext_lookup fun k => ?_
  rw [lookup_union, lookup_union]
  cases hx : a.lookup k with
  | none => rw [none_or, or_none]
  | some x =>
    cases hy : b.lookup k with
    | none => rfl
    | some y => rw [h k x y hx hy]

theorem compat_union_left (hab : Compat a b) : Compat (a ∪ b) c ↔ Compat a c ∧ Compat b c := by
  constructor
  · intro h
    refine ⟨fun k x z hx hz => h k x z ?_ hz, fun k y z hy hz => ?_⟩
    · rw [lookup_union, hx, some_or]
    · refine h k y z ?_ hz
      rw [union_comm_of_compat hab, lookup_union, hy, some_or]
  · rintro ⟨hac, hbc⟩ k x z hx hz
    rw [lookup_union] at hx
    cases ha : a.lookup k with
    | none =>
      rw [ha] at hx
      exact hbc k x z hx hz
    | some w =>
      rw [ha] at hx
      rw [← some.inj hx]
      exact hac k w z ha hz

theorem compat_union_right (hbc : Compat b c) : Compat a (b ∪ c) ↔ Compat a b ∧ Compat a c := by
  rw [compat_comm, compat_union_left hbc, compat_comm, compat_comm (a := c)]

/-- The second map has every entry of the first. -/
def Extends (a b : PMap κ υ) : Prop :=
  ∀ k x, a.lookup k = some x → b.lookup k = some x

theorem Extends.refl (a : PMap κ υ) : Extends a a :=
  fun _ _ h => h

theorem Extends.trans (hab : Extends a b) (hbc : Extends b c) : Extends a c :=
  fun k x h => hbc k x (hab k x h)

theorem extends_empty (a : PMap κ υ) : Extends ∅ a :=
  nofun

theorem extends_union_left (a b : PMap κ υ) : Extends a (a ∪ b) := by
  intro k x hx
  rw [lookup_union, hx, some_or]

/-- Two maps below a common one are compatible. -/
theorem Extends.compat (hac : Extends a c) (hbc : Extends b c) : Compat a b := by
  intro k x y hx hy
  have hxy := (hac k x hx).symm.trans (hbc k y hy)
  exact some.inj hxy

theorem Extends.mem (h : Extends a b) {k : κ} (hk : k ∈ a) : k ∈ b := by
  obtain ⟨x, hx⟩ := mem_iff.mp hk
  exact mem_of_lookup_eq_some (h k x hx)

/-- Maps of one domain, one above the other, are the same. -/
theorem Extends.eq (h : Extends a b) (hdom : ∀ k, k ∈ b → k ∈ a) : a = b := by
  refine ext_lookup fun k => ?_
  cases ha : a.lookup k with
  | some x => rw [h k x ha]
  | none =>
    have hk : k ∉ b := fun hb => lookup_eq_none.mp ha (hdom k hb)
    rw [lookup_eq_none.mpr hk]

end

/-! ## Functions that add entries -/

section

variable {ρ a b c : PMap κ υ} {f h : PMap κ υ → Option (PMap κ υ)}

/-- The function only adds entries. -/
def Grows (f : PMap κ υ → Option (PMap κ υ)) : Prop :=
  ∀ a b, f a = some b → Extends a b

/-- What the function makes of a map it also makes with the entries of `ρ` on
    top, as long as they do not contradict the outcome. -/
def Lifts (ρ : PMap κ υ) (f : PMap κ υ → Option (PMap κ υ)) : Prop :=
  ∀ a b, f a = some b → Compat ρ b → f (ρ ∪ a) = some (ρ ∪ b)

/-- What the function makes with the entries of `ρ` on top it makes without them. -/
def Restricts (ρ : PMap κ υ) (f : PMap κ υ → Option (PMap κ υ)) : Prop :=
  ∀ a c, Compat ρ a → f (ρ ∪ a) = some c → ∃ b, f a = some b ∧ Compat ρ b ∧ c = ρ ∪ b

/-- The function adds entries of some keys only. -/
def Within (V : List κ) (f : PMap κ υ → Option (PMap κ υ)) : Prop :=
  ∀ a b, f a = some b → ∀ k ∈ b, k ∈ a ∨ k ∈ V

omit [DecidableEq κ] in
theorem Within.bind {V W : List κ} (hf : Within V f) (hh : Within W h) :
    Within (V ++ W) fun a => (f a).bind h := by
  intro a c hac k hk
  obtain ⟨b, hab, hbc⟩ := bind_eq_some_iff.mp hac
  rw [List.mem_append]
  rcases hh b c hbc k hk with hk | hk
  · exact (hf a b hab k hk).imp_right .inl
  · exact .inr (.inr hk)

theorem Grows.bind (hf : Grows f) (hh : Grows h) : Grows fun a => (f a).bind h := by
  intro a c hac
  obtain ⟨b, hab, hbc⟩ := bind_eq_some_iff.mp hac
  exact (hf a b hab).trans (hh b c hbc)

theorem Lifts.bind (hf : Lifts ρ f) (hh : Lifts ρ h) (hgrow : Grows h) :
    Lifts ρ fun a => (f a).bind h := by
  intro a c hac hρ
  obtain ⟨b, hab, hbc⟩ := bind_eq_some_iff.mp hac
  have hb := hf a b hab fun k x y hx hy => hρ k x y hx (hgrow b c hbc k y hy)
  exact bind_eq_some_iff.mpr ⟨ρ ∪ b, hb, hh b c hbc hρ⟩

theorem Restricts.bind (hf : Restricts ρ f) (hh : Restricts ρ h) :
    Restricts ρ fun a => (f a).bind h := by
  intro a d hρ had
  obtain ⟨c, hac, hcd⟩ := bind_eq_some_iff.mp had
  obtain ⟨b, hab, hb, rfl⟩ := hf a c hρ hac
  obtain ⟨e, hbe, he, rfl⟩ := hh b d hb hcd
  exact ⟨e, bind_eq_some_iff.mpr ⟨b, hab, hbe⟩, he, rfl⟩

end

/-! ## Joins -/

section

open Classical

/-- What two maps contribute to a join. -/
noncomputable def joined (a b : PMap κ υ) : Multiset (PMap κ υ) :=
  if Compat a b then {a ∪ b} else 0

/-- The natural join of two bags of maps. -/
noncomputable def join (A B : Multiset (PMap κ υ)) : Multiset (PMap κ υ) :=
  A.bind fun a => B.bind fun b => joined a b

theorem joined_comm (a b : PMap κ υ) : joined a b = joined b a := by
  rw [joined, joined]
  by_cases h : Compat a b
  · rw [if_pos h, if_pos h.symm, union_comm_of_compat h]
  · rw [if_neg h, if_neg fun h' => h h'.symm]

/-- Joining does not depend on the order of its arguments. -/
theorem join_comm (A B : Multiset (PMap κ υ)) : join A B = join B A := by
  rw [join, bind_bind, join]
  simp only [joined_comm]

/-- Three maps join in one way. -/
theorem joined_bind (a b c : PMap κ υ) :
    (joined a b).bind (fun ab => joined ab c) = (joined b c).bind fun bc => joined a bc := by
  by_cases hab : Compat a b
  · rw [joined, if_pos hab, singleton_bind, joined, joined]
    by_cases hbc : Compat b c
    · rw [if_pos hbc, singleton_bind, joined]
      have hiff : Compat (a ∪ b) c ↔ Compat a (b ∪ c) := by
        rw [compat_union_left hab, compat_union_right hbc]
        exact ⟨fun h => ⟨hab, h.1⟩, fun h => ⟨h.2, hbc⟩⟩
      simp only [hiff, union_assoc]
    · rw [if_neg hbc, zero_bind, if_neg]
      exact fun h => hbc ((compat_union_left hab).mp h).2
  · rw [joined, if_neg hab, zero_bind, joined]
    by_cases hbc : Compat b c
    · rw [if_pos hbc, singleton_bind, joined, if_neg]
      exact fun h => hab ((compat_union_right hbc).mp h).1
    · rw [if_neg hbc, zero_bind]

/-- Nor on how they are grouped. -/
theorem join_assoc (A B C : Multiset (PMap κ υ)) : join (join A B) C = join A (join B C) := by
  simp only [join, Multiset.bind_assoc]
  refine Multiset.bind_congr fun a _ => Multiset.bind_congr fun b _ => ?_
  rw [Multiset.bind_bind]
  exact bind_congr fun c _ => joined_bind a b c

theorem join_left_comm (A B C : Multiset (PMap κ υ)) : join A (join B C) = join B (join A C) := by
  rw [← join_assoc, join_comm A B, join_assoc]

theorem mem_join {A B : Multiset (PMap κ υ)} {c : PMap κ υ} :
    c ∈ join A B ↔ ∃ a ∈ A, ∃ b ∈ B, Compat a b ∧ c = a ∪ b := by
  simp only [join, mem_bind]
  refine exists_congr fun a => and_congr_right fun _ => exists_congr fun b =>
    and_congr_right fun _ => ?_
  rw [joined]
  split
  · rename_i h
    exact ⟨fun hc => ⟨h, mem_singleton.mp hc⟩, fun hc => mem_singleton.mpr hc.2⟩
  · rename_i h
    exact ⟨fun hc => absurd hc (notMem_zero c), fun hc => absurd hc.1 h⟩

theorem join_singleton_left (a : PMap κ υ) (B : Multiset (PMap κ υ)) :
    join {a} B = B.bind fun b => joined a b := by
  rw [join, singleton_bind]

theorem join_bind (A : Multiset (PMap κ υ)) (B : Multiset (PMap κ υ)) :
    join A B = A.bind fun a => join {a} B := by
  simp only [join_singleton_left]
  rfl

theorem join_singleton_empty (a : PMap κ υ) : join {a} {∅} = {a} := by
  have hcompat : Compat a ∅ := fun _ _ _ _ hy => by cases hy
  rw [join_singleton_left, singleton_bind, joined, if_pos hcompat, union_empty]

/-- A loop over a list that has, for each element, what another has for it joined
    with one map, computes the join. -/
theorem coe_filterMap_eq_join {α : Type*} (a : PMap κ υ) (l : List α)
    (f h : α → Option (PMap κ υ))
    (hfh : ∀ t ∈ l, ∀ c, h t = some c ↔ ∃ b, f t = some b ∧ Compat a b ∧ c = a ∪ b) :
    (l.filterMap h : Multiset (PMap κ υ)) = join {a} (l.filterMap f : Multiset (PMap κ υ)) := by
  rw [join_singleton_left]
  induction l with
  | nil => rfl
  | cons t l ih =>
    have ih := ih fun u hu => hfh u (List.mem_cons_of_mem t hu)
    have ht := hfh t List.mem_cons_self
    cases hft : f t with
    | none =>
      have hht : h t = none := by
        rw [eq_none_iff_forall_ne_some]
        intro c hc
        obtain ⟨b, hb, -⟩ := (ht c).mp hc
        rw [hft] at hb
        exact some_ne_none b hb.symm
      rw [List.filterMap_cons_none hht, List.filterMap_cons_none hft, ih]
    | some b =>
      rw [List.filterMap_cons_some hft, ← cons_coe, cons_bind, ← ih, joined]
      by_cases hab : Compat a b
      · have hht : h t = some (a ∪ b) := (ht _).mpr ⟨b, hft, hab, rfl⟩
        rw [List.filterMap_cons_some hht, if_pos hab, ← cons_coe, singleton_add]
      · have hht : h t = none := by
          rw [eq_none_iff_forall_ne_some]
          intro c hc
          obtain ⟨b', hb', hab', -⟩ := (ht c).mp hc
          rw [some.inj (hft.symm.trans hb')] at hab
          exact hab hab'
        rw [List.filterMap_cons_none hht, if_neg hab, zero_add]

end

end Lib

end GoRdf
