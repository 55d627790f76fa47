import Mathlib.Data.List.Perm.Basic
import GoRdf.Core.Plan
import GoRdf.Lib.Maps
import GoRdf.Theory.TermKey

/-!
# The Solutions of a Basic Graph Pattern

The nested loops of `eachBGPSolution` as the list they run through, and the
planner's order as a permutation.

## Main definitions

* `matchRows`: The rows one triple pattern makes of a row.
* `bgpSolutions`: The rows a list of patterns makes of a row.

## Theorems

* `eachBGPSolution_lists`: The loops run through `bgpSolutions`.
* `evalBGPInOrder_eq`: All of them, or the first so many.
* `orderBGP_perm`: `orderBGP` permutes its input.
* `isCompatible_iff`: Comparing N3 forms compares terms.
-/

namespace GoRdf

open Lib List Finmap BgpCandidate

/-! ## Rows -/

theorem isCompatible_iff {a b : Row} : isCompatible a b = true ↔ Compat a b := by
  rw [isCompatible, decide_eq_true_eq]
  constructor
  · intro h v x y hx hy
    have hv := h v (mem_keys.mpr (mem_of_lookup_eq_some hx))
    rw [hx, hy] at hv
    exact Term.n3_inj.mp (beq_iff_eq.mp hv)
  · intro h v _
    rw [Option.all_eq_true]
    intro x hx
    rw [Option.all_eq_true]
    intro y hy
    rw [h v x y hx hy]
    exact beq_self_eq_true _

theorem lookup_projectRow (vars : List String) (row : Row) (v : String) :
    (projectRow vars row).lookup v = if v ∈ vars then row.lookup v else none := by
  -- The loop leaves a variable as it is unless it comes by it.
  have hloop : ∀ {f : Row → String → Row}, (∀ out w, (f out w).lookup v =
      if v = w then (row.lookup w).or (out.lookup v) else out.lookup v) →
      ∀ (vars : List String) (out : Row), (vars.foldl f out).lookup v =
        if v ∈ vars then (row.lookup v).or (out.lookup v) else out.lookup v := by
    intro f hf vars
    induction vars with
    | nil => intro out; rw [foldl_nil, if_neg not_mem_nil]
    | cons w vars ih =>
      intro out
      rw [foldl_cons, ih, hf]
      by_cases hw : v = w
      · rw [if_pos hw, if_pos (mem_cons.mpr (.inl hw)), ← hw]
        cases row.lookup v <;> simp
      · simp only [mem_cons, hw, false_or, if_false]
  refine (hloop (fun out w => ?_) vars ∅).trans ?_
  · by_cases hw : v = w
    · subst hw
      cases row.lookup v <;> simp
    · cases row.lookup w with
      | none => simp [hw]
      | some x => simp [hw]
  rw [lookup_empty, Option.or_none]

/-! ## The loops as lists -/

/-- The rows one triple pattern makes of a row. -/
def matchRows (pl : Prologue) (g : Graph) (tp : PatternTriple) (row : Row) : List Row :=
  match tp with
  | ⟨s, .term p, o⟩ =>
    match storePattern pl row s p o with
    | none => []
    | some pat => (g.triples pat).filterMap (bindTriple pl s p o row)
  | ⟨s, .path p, o⟩ =>
    match asSubjectEnd (resolvePatternTerm pl row s) with
    | none => []
    | some subj => (p.eval g subj (resolvePatternTerm pl row o)).map (bindPair s o row)

/-- The rows a list of triple patterns makes of a row, in the order of the loops. -/
def bgpSolutions (pl : Prologue) (g : Graph) : List PatternTriple → Row → List Row
  | [], row => [row]
  | tp :: rest, row => (matchRows pl g tp row).flatMap (bgpSolutions pl g rest)

section

variable {σ : Type} (pl : Prologue) (g : Graph)

/-- A pattern runs the rest of the loops once for each row it makes. -/
theorem eachBGPSolution_cons (tp : PatternTriple) (rest : List PatternTriple) (row : Row)
    (yield : Row → σ → Bool × σ) (st : σ) :
    eachBGPSolution pl g (tp :: rest) row yield st =
      forEach (fun row' => eachBGPSolution pl g rest row' yield) (matchRows pl g tp row) st := by
  obtain ⟨s, verb, o⟩ := tp
  cases verb with
  | term p =>
    rw [eachBGPSolution, matchRows]
    cases storePattern pl row s p o with
    | none => rfl
    | some pat =>
      rw [← forEach_filterMap]
      refine forEach_congr (fun t _ st => ?_) st
      cases bindTriple pl s p o row t <;> rfl
  | path p =>
    rw [eachBGPSolution, matchRows]
    cases asSubjectEnd (resolvePatternTerm pl row s) with
    | none => rfl
    | some subj =>
      exact forEach_map (fun row' => eachBGPSolution pl g rest row' yield) (bindPair s o row)
        (p.eval g subj (resolvePatternTerm pl row o)) st

/-- The loops run through `bgpSolutions`, whatever their consumer does. -/
theorem eachBGPSolution_lists (tps : List PatternTriple) (row : Row) :
    Lists (eachBGPSolution pl g tps row : (Row → σ → Bool × σ) → σ → Bool × σ)
      (bgpSolutions pl g tps row) := by
  induction tps generalizing row with
  | nil =>
    intro yield st
    rw [bgpSolutions, forEach_singleton]
    rfl
  | cons tp rest ih =>
    intro yield st
    rw [eachBGPSolution_cons]
    exact forEach_lists (fun row' _ => ih row') yield st

end

/-- The consumer without a limit keeps every row, the one with a limit the first
    so many. -/
theorem forEach_collectUpTo (limit : Int) (rows : List Row) :
    (forEach (collectUpTo limit) rows []).2 =
      if limit ≤ 0 then rows else rows.take limit.toNat := by
  by_cases hlimit : limit ≤ 0
  · have hcollect : collectUpTo limit = collect := by
      funext row results
      rw [collectUpTo, decide_eq_true hlimit, Bool.true_or, collect]
    rw [if_pos hlimit, hcollect, forEach_collect, nil_append]
  · have htake : collectUpTo limit = takeInto limit.toNat := by
      funext row results
      have hlt : ((results ++ [row]).length : Int) < limit ↔
          (results ++ [row]).length < limit.toNat := by omega
      rw [collectUpTo, decide_eq_false hlimit, Bool.false_or, takeInto, decide_eq_decide.mpr hlt]
    have hpos : ([] : List Row).length < limit.toNat := by
      rw [length_nil]
      omega
    rw [if_neg hlimit, htake, forEach_takeInto _ _ _ hpos, nil_append, length_nil, Nat.sub_zero]

/-- `evalBGPInOrder` collects the solutions, up to its limit. -/
theorem evalBGPInOrder_eq (pl : Prologue) (g : Graph) (tps : List PatternTriple) (row : Row)
    (limit : Int) :
    evalBGPInOrder pl g tps row limit =
      if limit ≤ 0 then bgpSolutions pl g tps row
      else (bgpSolutions pl g tps row).take limit.toNat := by
  rw [evalBGPInOrder, eachBGPSolution_lists, forEach_collectUpTo]

theorem evalBGP_eq (K : Costs) (pl : Prologue) (g : Graph) (tps : List PatternTriple) (row : Row) :
    evalBGP K pl g tps row = bgpSolutions pl g (orderBGP K pl g tps row) row := by
  rw [evalBGP, evalBGPUpTo, evalBGPInOrder_eq, if_pos le_rfl]

/-! ## The planner's order -/

section

open scoped List

variable {K : Costs}

/-- The pick is one of the candidates scanned, or the one the scan started with. -/
theorem cheapest_lt (key : BgpCandidate → BgpCostKey K) (cs : List BgpCandidate) (i : Nat)
    (best : Nat × BgpCostKey K) (hbest : best.1 < i + cs.length) :
    cheapest key cs i best < i + cs.length := by
  induction cs generalizing i best with
  | nil => exact hbest
  | cons c cs ih =>
    rw [length_cons] at hbest ⊢
    have hlen : i + (cs.length + 1) = i + 1 + cs.length := by omega
    rw [hlen]
    refine ih (i + 1) _ ?_
    split
    · exact Nat.lt_of_lt_of_le (Nat.lt_succ_self i) (Nat.le_add_right _ _)
    · omega

/-- Every candidate is used once. -/
theorem chooseOrder_perm (n : Nat) (cands : List BgpCandidate) (bound : List String)
    (anyChosen : Bool) (hn : cands.length ≤ n) :
    chooseOrder K n cands bound anyChosen ~ cands.map tp := by
  induction n generalizing cands bound anyChosen with
  | zero =>
    rw [length_eq_zero_iff.mp (Nat.le_zero.mp hn)]
    exact List.Perm.refl _
  | succ n ih =>
    cases cands with
    | nil => exact List.Perm.refl _
    | cons c cs =>
      rw [chooseOrder]
      generalize hbest : cheapest _ cs 1 _ = best
      have hlt : best < (c :: cs).length := by
        rw [← hbest, length_cons, Nat.add_comm cs.length 1]
        exact cheapest_lt _ cs 1 _ (Nat.lt_of_lt_of_le Nat.zero_lt_one (Nat.le_add_right _ _))
      -- The default of the lookup is never used.
      have hpick : (c :: cs)[best]?.getD c = (c :: cs)[best] := by
        rw [getElem?_eq_getElem hlt, Option.getD_some]
      have hrest : ((c :: cs).eraseIdx best).length ≤ n := by
        rw [length_eraseIdx_of_lt hlt]
        omega
      rw [hpick]
      refine ((ih _ _ true hrest).cons _).trans ?_
      exact (getElem_cons_eraseIdx_perm hlt).map _

theorem newBGPCandidate_tp (pl : Prologue) (row : Row) (tp : PatternTriple) :
    (newBGPCandidate pl row tp).tp = tp := by
  obtain ⟨s, verb, o⟩ := tp
  cases verb with
  | path p => rfl
  | term p =>
    rw [newBGPCandidate]
    cases asSubjectEnd (resolvePatternTerm pl row s) with
    | none => rfl
    | some subj =>
      cases asPredicateEnd (resolvePatternTerm pl row p) <;> rfl

theorem probeOne_tp (g : Graph) (c : BgpCandidate) (acc : Nat × Bool) :
    (probeOne g c acc).1.tp = c.tp := by
  rw [probeOne]
  split
  · rfl
  · dsimp only
    split <;> rfl

/-- Probing changes what is known of the candidates, not the candidates. -/
theorem probeRound_tp (g : Graph) (is : List Nat) (cands : List BgpCandidate) (acc : Nat × Bool) :
    (probeRound g is cands acc).1.map tp = cands.map tp := by
  induction is generalizing cands acc with
  | nil => rfl
  | cons i is ih =>
    rw [probeRound]
    cases hc : cands[i]? with
    | none => exact ih cands acc
    | some c =>
      have hset : (cands.set i (probeOne g c acc).1).map tp = cands.map tp := by
        obtain ⟨hi, rfl⟩ := List.getElem?_eq_some_iff.mp hc
        rw [List.map_set, probeOne_tp, ← List.getElem_map tp (h := by simpa using hi)]
        exact List.set_getElem_self _
      rw [ih, hset]

theorem probeCandidates_tp (g : Graph) (cands : List BgpCandidate) :
    (probeCandidates g cands).map tp = cands.map tp := by
  rw [probeCandidates]
  cases g.cardinality with
  | some card =>
    rw [map_map]
    refine map_congr_left fun c _ => ?_
    rw [Function.comp_apply]
    split <;> rfl
  | none =>
    have hcapped : ∀ (is : List Nat) (limit : Nat) (cs : List BgpCandidate),
        (cs.mapIdx fun i c =>
          if is.contains i && c.capped then { c with count := limit } else c).map
          tp = cs.map tp := by
      intro is limit cs
      refine ext_getElem (by simp) fun i h₁ h₂ => ?_
      rw [getElem_map, getElem_mapIdx, getElem_map]
      split <;> rfl
    dsimp only
    split
    · rfl
    · split
      · rw [hcapped, probeRound_tp]
      · rw [hcapped, probeRound_tp, probeRound_tp]

/-- `orderBGP` permutes its input, whatever the store says of cardinalities. -/
theorem orderBGP_perm (K : Costs) (pl : Prologue) (g : Graph) (tps : List PatternTriple)
    (row : Row) : orderBGP K pl g tps row ~ tps := by
  rw [orderBGP]
  split
  · exact List.Perm.refl _
  · split
    · exact List.Perm.refl _
    · dsimp only
      have htp : tp ∘ newBGPCandidate pl row = id :=
        funext (newBGPCandidate_tp pl row)
      refine (chooseOrder_perm _ _ [] false le_rfl).trans ?_
      rw [probeCandidates_tp, map_map, htp, map_id]

end

end GoRdf
