import Mathlib.Data.Finset.Card
import Mathlib.Logic.Relation

/-!
# Recursion With Marks

A recursive function that marks a node when it enters it, and returns at once
from a node that is marked. A node that is looked for ends all of it. The
recursion is bounded by fuel, and is without a result where the fuel runs out.

Every nested call has marked one more node. So the fuel does not run out if
there is more of it than there are nodes without a mark (`descend_returns`).

The calls share their marks, so one that ends at a mark has seen nothing of what
comes after it. A search that found nothing is complete nevertheless: the marks it
leaves are closed under successors (`descend_iff`).

## Main definitions

* `descend`, `descendAll`: The function, and its loop over the successors.
* `Closed`: What holds of the marks where nothing was found.

## Theorems

* `descend_returns`: Enough fuel gives a result.
* `descend_iff`: It says whether what is looked for can be reached.
-/

namespace GoRdf

open Finset Relation

namespace Lib

variable {α κ σ : Type*} [DecidableEq κ]

section

variable (key : α → κ) (next : α → List α) (found : α → Bool) (enter : α → σ → σ)

mutual

/-- From a node: whether what is looked for was found, the marks, and what `enter` has
    made of the state. -/
def descend : Nat → α → List κ → σ → Option (Bool × List κ × σ)
  | 0, _, _, _ => none
  | n + 1, a, marks, s =>
    if found a then some (true, marks, s)
    else if key a ∈ marks then some (false, marks, s)
    else descendAll n (next a) (key a :: marks) (enter a s)
termination_by n => (n, 0)

/-- The loop over the successors of a node. -/
def descendAll : Nat → List α → List κ → σ → Option (Bool × List κ × σ)
  | _, [], marks, s => some (false, marks, s)
  | n, b :: bs, marks, s => do
      let (stop, marks, s) ← descend n b marks s
      if stop then return (true, marks, s) else descendAll n bs marks s
termination_by n bs => (n, bs.length + 1)

end

end

section

variable {key : α → κ} {next : α → List α} {found : α → Bool} {enter : α → σ → σ}

/-- The nodes of `U` without a mark. -/
def unmarked (U : Finset κ) (marks : List κ) : Finset κ :=
  U.filter fun k => k ∉ marks

theorem card_unmarked_mark {U : Finset κ} {marks : List κ} {k : κ} (hU : k ∈ U) (hk : k ∉ marks) :
    (unmarked U (k :: marks)).card < (unmarked U marks).card := by
  refine card_lt_card ⟨?_, ?_⟩
  · intro x hx
    rw [unmarked, mem_filter, List.mem_cons, not_or] at hx
    exact mem_filter.mpr ⟨hx.1, hx.2.2⟩
  · intro hsub
    have hmem := hsub (mem_filter.mpr ⟨hU, hk⟩)
    rw [unmarked, mem_filter] at hmem
    exact hmem.2 List.mem_cons_self

theorem card_unmarked_anti (U : Finset κ) {marks marks' : List κ} (h : marks ⊆ marks') :
    (unmarked U marks').card ≤ (unmarked U marks).card := by
  refine card_le_card fun x hx => ?_
  rw [unmarked, mem_filter] at hx
  exact mem_filter.mpr ⟨hx.1, fun hm => hx.2 (h hm)⟩

/-- The marks that were there at the start, and those of nodes that are not looked for and
    whose successors are marked. -/
def Closed (key : α → κ) (next : α → List α) (found : α → Bool) (marks marks' : List κ) : Prop :=
  ∀ k ∈ marks', k ∈ marks ∨ ∃ a, key a = k ∧ found a = false ∧ ∀ b ∈ next a, key b ∈ marks'

/-- What a result says. -/
theorem descend_spec {n : Nat} : ∀ {a : α} {marks : List κ} {s : σ} {r : Bool × List κ × σ},
    descend key next found enter n a marks s = some r → marks ⊆ r.2.1 ∧
      (r.1 = true → ∃ b, ReflTransGen (fun a b => b ∈ next a) a b ∧ found b = true) ∧
      (r.1 = false → key a ∈ r.2.1 ∧ Closed key next found marks r.2.1) := by
  induction n with
  | zero =>
    intro a marks s r h
    rw [descend] at h
    cases h
  | succ n ih =>
    have hloop : ∀ {bs : List α} {marks : List κ} {s : σ} {r : Bool × List κ × σ},
        descendAll key next found enter n bs marks s = some r → marks ⊆ r.2.1 ∧
          (r.1 = true →
            ∃ b ∈ bs, ∃ c, ReflTransGen (fun a b => b ∈ next a) b c ∧ found c = true) ∧
          (r.1 = false → (∀ b ∈ bs, key b ∈ r.2.1) ∧ Closed key next found marks r.2.1) := by
      intro bs
      induction bs with
      | nil =>
        intro marks s r h
        rw [descendAll] at h
        cases h
        exact ⟨List.Subset.refl _, nofun, fun _ => ⟨nofun, fun k => .inl⟩⟩
      | cons b bs ihb =>
        intro marks s r h
        rw [descendAll] at h
        obtain ⟨⟨stop, marks', s'⟩, hcall, h⟩ := Option.bind_eq_some_iff.mp h
        obtain ⟨hsub, hfound, hnot⟩ := ih hcall
        cases stop with
        | true =>
          cases h
          exact ⟨hsub, fun _ => ⟨b, List.mem_cons_self, hfound rfl⟩, nofun⟩
        | false =>
          obtain ⟨hsub', hfound', hnot'⟩ := ihb h
          obtain ⟨hb, hclosed⟩ := hnot rfl
          refine ⟨List.Subset.trans hsub hsub', fun htrue => ?_, fun hfalse => ?_⟩
          · obtain ⟨c, hc, hreach⟩ := hfound' htrue
            exact ⟨c, List.mem_cons_of_mem b hc, hreach⟩
          · obtain ⟨hbs, hclosed'⟩ := hnot' hfalse
            refine ⟨List.forall_mem_cons.mpr ⟨hsub' hb, hbs⟩, fun k hk => ?_⟩
            rcases hclosed' k hk with hk | hdone
            · exact (hclosed k hk).imp_right fun ⟨a, ha, hno, hnext⟩ =>
                ⟨a, ha, hno, fun b hb => hsub' (hnext b hb)⟩
            · exact .inr hdone
    intro a marks s r h
    rw [descend] at h
    split_ifs at h with hfound hmark
    · cases h
      exact ⟨List.Subset.refl _, fun _ => ⟨a, .refl, hfound⟩, nofun⟩
    · cases h
      exact ⟨List.Subset.refl _, nofun, fun _ => ⟨hmark, fun k => .inl⟩⟩
    · obtain ⟨hsub, hyes, hnot⟩ := hloop h
      refine ⟨fun k hk => hsub (List.mem_cons_of_mem _ hk), fun htrue => ?_, fun hfalse => ?_⟩
      · obtain ⟨b, hb, c, hc, hgoal⟩ := hyes htrue
        exact ⟨c, .head hb hc, hgoal⟩
      · obtain ⟨hnext, hclosed⟩ := hnot hfalse
        refine ⟨hsub List.mem_cons_self, fun k hk => ?_⟩
        rcases hclosed k hk with hk | hdone
        · rcases List.mem_cons.mp hk with rfl | hk
          · exact .inr ⟨a, rfl, Bool.not_eq_true _ ▸ hfound, hnext⟩
          · exact .inl hk
        · exact .inr hdone

/-- From no marks, what is looked for is found exactly if it can be reached, where nodes of
    one key are alike. -/
theorem descend_iff (hkey : ∀ a b, key a = key b → found a = found b ∧ next a = next b) {n : Nat}
    {a : α} {s : σ} {r : Bool × List κ × σ}
    (h : descend key next found enter n a [] s = some r) :
    r.1 = true ↔ ∃ b, ReflTransGen (fun a b => b ∈ next a) a b ∧ found b = true := by
  obtain ⟨-, hfound, hnot⟩ := descend_spec h
  refine ⟨hfound, ?_⟩
  rintro ⟨b, hb, hgoal⟩
  by_contra hfalse
  obtain ⟨ha, hclosed⟩ := hnot (Bool.not_eq_true _ ▸ hfalse)
  -- What is reached is marked, and no marked node is looked for.
  have hmarked : key b ∈ r.2.1 := by
    clear hgoal
    induction hb with
    | refl => exact ha
    | @tail b c _ hbc ih =>
      obtain ⟨b', hb', -, hnext⟩ := (hclosed _ ih).resolve_left List.not_mem_nil
      rw [← (hkey b' b hb').2] at hbc
      exact hnext c hbc
  obtain ⟨b', hb', hno, -⟩ := (hclosed _ hmarked).resolve_left List.not_mem_nil
  rw [(hkey b' b hb').1, hgoal] at hno
  cases hno

/-- With more fuel than there are nodes without a mark there is a result. -/
theorem descend_returns {U : Finset κ} (hU : ∀ a, ∀ b ∈ next a, key b ∈ U) (n : Nat) :
    ∀ (a : α) (marks : List κ) (s : σ), key a ∈ U → (unmarked U marks).card < n →
      ∃ r, descend key next found enter n a marks s = some r := by
  induction n with
  | zero => exact nofun
  | succ n ih =>
    -- The loop over nodes of `U`: each call keeps the marks, so the fuel stays enough.
    have hloop : ∀ (bs : List α) (marks : List κ) (s : σ), (∀ b ∈ bs, key b ∈ U) →
        (unmarked U marks).card < n →
        ∃ r, descendAll key next found enter n bs marks s = some r := by
      intro bs
      induction bs with
      | nil =>
        intro marks s _ _
        rw [descendAll]
        exact ⟨_, rfl⟩
      | cons b bs ihb =>
        intro marks s hbs hn
        obtain ⟨⟨stop, marks', s'⟩, hcall⟩ := ih b marks s (hbs b List.mem_cons_self) hn
        rw [descendAll, hcall]
        cases stop with
        | true => exact ⟨_, rfl⟩
        | false =>
          exact ihb marks' s' (fun c hc => hbs c (List.mem_cons_of_mem b hc))
            ((card_unmarked_anti U (descend_spec hcall).1).trans_lt hn)
    intro a marks s ha hn
    rw [descend]
    by_cases hfound : found a = true
    · rw [if_pos hfound]
      exact ⟨_, rfl⟩
    rw [if_neg hfound]
    by_cases hmark : key a ∈ marks
    · rw [if_pos hmark]
      exact ⟨_, rfl⟩
    rw [if_neg hmark]
    have hless := card_unmarked_mark ha hmark
    exact hloop (next a) (key a :: marks) (enter a s) (hU a) (by omega)

end

end Lib

end GoRdf
