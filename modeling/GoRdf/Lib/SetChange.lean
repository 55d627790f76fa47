import Mathlib.Data.Set.Card

/-!
# Changing a Set Element by Element

A set is changed in small steps, first by removals and then by additions. What the
steps come to in the end does not depend on their order. What can be seen when they
are cut short does: the set is as before or as after at every point exactly if at
most one of the steps has an effect.

## Main definitions

* `SetChange`: One step.
* `afterChanges`: The set after some steps.
* `replacing`: Removals, and then additions.
* `Indivisible`: Only the first and the last set can be seen.

## Theorems

* `afterChanges_replacing`: What removals and additions come to.
* `indivisible_replacing_iff`: At most one step has an effect.
-/

namespace GoRdf

open List Set

namespace Lib

variable {α : Type}

/-- A change of a set by one element. -/
inductive SetChange (α : Type)
  | remove (x : α)
  | add (x : α)

/-- The set after a change. -/
def SetChange.apply (S : Set α) : SetChange α → Set α
  | .remove x => S \ {x}
  | .add x => insert x S

/-- The set after some changes. -/
def afterChanges (S : Set α) (changes : List (SetChange α)) : Set α :=
  changes.foldl SetChange.apply S

/-- Removals, and then additions. -/
def replacing (removed added : List α) : List (SetChange α) :=
  removed.map .remove ++ added.map .add

/-- Wherever the changes are cut short, none or all of them can be seen. -/
def Indivisible (S : Set α) (changes : List (SetChange α)) : Prop :=
  ∀ k, afterChanges S (changes.take k) = S ∨
    afterChanges S (changes.take k) = afterChanges S changes

theorem afterChanges_removals (S : Set α) (removed : List α) :
    afterChanges S (removed.map .remove) = S \ {x | x ∈ removed} := by
  induction removed generalizing S with
  | nil =>
    simp [afterChanges]
  | cons x removed ih =>
    change afterChanges (S \ {x}) (removed.map .remove) = _
    ext y
    simp only [ih, mem_sdiff, mem_singleton_iff, mem_ofPred_eq, mem_cons, not_or, and_assoc]

theorem afterChanges_additions (S : Set α) (added : List α) :
    afterChanges S (added.map .add) = S ∪ {x | x ∈ added} := by
  induction added generalizing S with
  | nil =>
    simp [afterChanges]
  | cons x added ih =>
    change afterChanges (insert x S) (added.map .add) = _
    ext y
    simp only [ih, mem_union, mem_insert_iff, mem_ofPred_eq, mem_cons]
    tauto

/-- What is removed is gone unless it is added. -/
theorem afterChanges_replacing (S : Set α) (removed added : List α) :
    afterChanges S (replacing removed added) = (S \ {x | x ∈ removed}) ∪ {x | x ∈ added} := by
  rw [replacing, afterChanges, foldl_append]
  change afterChanges (afterChanges S (removed.map .remove)) (added.map .add) = _
  rw [afterChanges_removals, afterChanges_additions]

theorem take_replacing (removed added : List α) (k : Nat) :
    (replacing removed added).take k =
      replacing (removed.take k) (added.take (k - removed.length)) := by
  rw [replacing, replacing, take_append, length_map, map_take, map_take]

/-- Some cut of a list separates two of its elements. -/
theorem exists_take_separates {l : List α} {x y : α} (hx : x ∈ l) (hy : y ∈ l) (hne : x ≠ y) :
    ∃ k, (x ∈ l.take k ∧ y ∉ l.take k) ∨ (y ∈ l.take k ∧ x ∉ l.take k) := by
  classical
  have hidx : l.idxOf x ≠ l.idxOf y := fun h => hne ((idxOf_inj hx).mp h)
  refine ⟨max (l.idxOf x) (l.idxOf y), ?_⟩
  simp only [mem_take_iff_idxOf_lt hx, mem_take_iff_idxOf_lt hy]
  omega

/-- With at most one element to lose, some removals lose nothing or all there is. -/
theorem diff_eq_or {S R R' : Set α} (h : (R ∩ S).Subsingleton) (hsub : R' ⊆ R) :
    S \ R' = S ∨ S \ R' = S \ R := by
  by_cases hmeet : ∃ x ∈ R', x ∈ S
  · obtain ⟨x, hx, hxS⟩ := hmeet
    refine .inr (Set.Subset.antisymm (fun y hy => ⟨hy.1, fun hyR => hy.2 ?_⟩)
      fun y hy => ⟨hy.1, fun hyR => hy.2 (hsub hyR)⟩)
    rwa [h ⟨hyR, hy.1⟩ ⟨hsub hx, hxS⟩]
  · refine .inl (sdiff_eq_left.mpr (disjoint_left.mpr fun y hyS hyR => ?_))
    exact hmeet ⟨y, hyR, hyS⟩

/-- With at most one element to gain, some additions gain nothing or all there is. -/
theorem union_eq_or {S A A' : Set α} (h : (A \ S).Subsingleton) (hsub : A' ⊆ A) :
    S ∪ A' = S ∨ S ∪ A' = S ∪ A := by
  -- What is added to a set is taken away from its complement.
  have hcompl := diff_eq_or (S := Sᶜ) h hsub
  simpa only [sdiff_eq, ← compl_union, compl_inj_iff] using hcompl

section

variable {S : Set α} {removed added : List α}

theorem indivisible_iff : Indivisible S (replacing removed added) ↔
    ∀ k, (S \ {x | x ∈ removed.take k}) ∪ {x | x ∈ added.take (k - removed.length)} = S ∨
      (S \ {x | x ∈ removed.take k}) ∪ {x | x ∈ added.take (k - removed.length)} =
        (S \ {x | x ∈ removed}) ∪ {x | x ∈ added} := by
  simp only [Indivisible, take_replacing, afterChanges_replacing]

/-- While elements are being removed, nothing has been added. -/
theorem Indivisible.removing (h : Indivisible S (replacing removed added)) {k : Nat}
    (hk : k ≤ removed.length) :
    S \ {x | x ∈ removed.take k} = S ∨
      S \ {x | x ∈ removed.take k} = (S \ {x | x ∈ removed}) ∪ {x | x ∈ added} := by
  have h := indivisible_iff.mp h k
  rw [Nat.sub_eq_zero_of_le hk] at h
  simpa using h

/-- A removal that has an effect is the only effect. -/
theorem Indivisible.of_removal (h : Indivisible S (replacing removed added)) {x : α}
    (hx : x ∈ removed) (hS : x ∈ S) :
    {y | y ∈ removed} ∩ S = {x} ∧ {y | y ∈ added} \ (S \ {y | y ∈ removed}) = ∅ := by
  have hend : S \ {y | y ∈ removed} = (S \ {y | y ∈ removed}) ∪ {y | y ∈ added} := by
    have h := h.removing (Nat.le_refl _)
    rw [take_length] at h
    refine h.resolve_left fun heq => ?_
    rw [← heq] at hS
    exact hS.2 hx
  refine ⟨?_, sdiff_eq_empty.mpr (union_eq_left.mp hend.symm)⟩
  refine eq_singleton_iff_unique_mem.mpr ⟨⟨hx, hS⟩, fun y hy => ?_⟩
  by_contra hne
  -- Cut between the two removals: one of them can be seen, the other cannot.
  obtain ⟨k, hk⟩ := exists_take_separates hx hy.1 fun heq => hne heq.symm
  have hcut : ∀ {u v : α}, u ∈ removed → u ∈ S → v ∈ removed → v ∈ S →
      u ∈ removed.take k → v ∉ removed.take k → False := by
    intro u v hu huS hv hvS hutake hvtake
    have hle : removed.take k = removed.take (min k removed.length) := take_eq_take_min
    rw [hle] at hutake hvtake
    rcases h.removing (Nat.min_le_right k removed.length) with heq | heq
    · rw [← heq] at huS
      exact huS.2 hutake
    · rw [← hend] at heq
      have hmem : v ∈ S \ {x | x ∈ removed} := by
        rw [← heq]
        exact ⟨hvS, hvtake⟩
      exact hmem.2 hv
  rcases hk with ⟨hin, hout⟩ | ⟨hin, hout⟩
  · exact hcut hx hS hy.1 hy.2 hin hout
  · exact hcut hy.1 hy.2 hx hS hin hout

/-- Without a removal that has an effect, there is at most one addition that has. -/
theorem Indivisible.of_additions (h : Indivisible S (replacing removed added))
    (hnone : {y | y ∈ removed} ∩ S = ∅) :
    ({y | y ∈ added} \ (S \ {y | y ∈ removed})).Subsingleton := by
  have hkeep : ∀ l : List α, l ⊆ removed → S \ {y | y ∈ l} = S := by
    intro l hl
    refine sdiff_eq_left.mpr (disjoint_left.mpr fun y hyS hyl => ?_)
    exact notMem_empty y (hnone ▸ ⟨hl hyl, hyS⟩)
  rw [hkeep removed (List.Subset.refl _)]
  have hstep : ∀ j, S ∪ {y | y ∈ added.take j} = S ∨
      S ∪ {y | y ∈ added.take j} = S ∪ {y | y ∈ added} := by
    intro j
    have h := indivisible_iff.mp h (removed.length + j)
    rwa [hkeep _ (take_subset _ _), hkeep removed (List.Subset.refl _),
      Nat.add_sub_cancel_left] at h
  intro x hx y hy
  by_contra hne
  have hcut : ∀ {u v : α} {j : Nat}, u ∉ S → v ∈ added → v ∉ S → u ∈ added.take j →
      v ∉ added.take j → False := by
    intro u v j huS hv hvS hutake hvtake
    rcases hstep j with heq | heq
    · exact huS (heq ▸ .inr hutake)
    · have hmem : v ∈ S ∪ {y | y ∈ added.take j} := heq ▸ .inr hv
      exact hmem.elim hvS hvtake
  obtain ⟨j, hj | hj⟩ := exists_take_separates hx.1 hy.1 hne
  · exact hcut hx.2 hy.1 hy.2 hj.1 hj.2
  · exact hcut hy.2 hx.1 hx.2 hj.1 hj.2

/-- The changes are indivisible exactly if at most one of them has an effect. -/
theorem indivisible_replacing_iff : Indivisible S (replacing removed added) ↔
    ({x | x ∈ removed} ∩ S).ncard + ({x | x ∈ added} \ (S \ {x | x ∈ removed})).ncard ≤ 1 := by
  have hfinR : ({x | x ∈ removed} ∩ S).Finite := removed.finite_toSet.subset inter_subset_left
  have hfinA : ({x | x ∈ added} \ (S \ {x | x ∈ removed})).Finite :=
    added.finite_toSet.subset sdiff_subset
  have := hfinR.to_subtype
  have := hfinA.to_subtype
  constructor
  · intro h
    by_cases hnone : {y | y ∈ removed} ∩ S = ∅
    · rw [hnone, ncard_empty, Nat.zero_add, ncard_le_one_iff_subsingleton]
      exact h.of_additions hnone
    · obtain ⟨x, hx⟩ := nonempty_iff_ne_empty.mpr hnone
      rw [(h.of_removal hx.1 hx.2).1, (h.of_removal hx.1 hx.2).2, ncard_singleton, ncard_empty]
  · intro h
    have hR : ({x | x ∈ removed} ∩ S).Subsingleton := ncard_le_one_iff_subsingleton.mp (by omega)
    have hA : ({x | x ∈ added} \ (S \ {x | x ∈ removed})).Subsingleton :=
      ncard_le_one_iff_subsingleton.mp (by omega)
    -- The removals come to nothing, or the additions do.
    have hone : S \ {x | x ∈ removed} = S ∨
        S \ {x | x ∈ removed} = (S \ {x | x ∈ removed}) ∪ {x | x ∈ added} := by
      by_cases hzero : ({x | x ∈ removed} ∩ S).ncard = 0
      · have hempty := (ncard_eq_zero hfinR).mp hzero
        exact .inl (sdiff_eq_left.mpr (disjoint_iff_inter_eq_empty.mpr
          ((inter_comm _ _).trans hempty)))
      · have hempty := (ncard_eq_zero hfinA).mp (by omega)
        exact .inr (union_eq_left.mpr (sdiff_eq_empty.mp hempty)).symm
    rw [indivisible_iff]
    intro k
    by_cases hk : k ≤ removed.length
    · have hnil : added.take (k - removed.length) = [] := by
        rw [Nat.sub_eq_zero_of_le hk, take_zero]
      simp only [hnil, not_mem_nil, ofPred_false, union_empty]
      rcases diff_eq_or hR (fun x hx => mem_of_mem_take hx : {x | x ∈ removed.take k} ⊆ _)
        with heq | heq
      · exact .inl heq
      · rwa [heq]
    · rw [take_of_length_le (by omega : removed.length ≤ k)]
      rcases union_eq_or hA (fun x hx => mem_of_mem_take hx :
        {x | x ∈ added.take (k - removed.length)} ⊆ _) with heq | heq
      · rwa [heq]
      · exact .inr heq

end

end Lib

end GoRdf
