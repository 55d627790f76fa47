import GoRdf.Theory.Scope

/-!
# The Streaming Evaluator

`eachSolution` runs through the rows of `evalPattern`, operator by operator, and
stops when its consumer does.

The two differ in what they build: `evalPattern` collects the left side of a
join before it looks at the right one, while `eachSolution` nests the loops. A
right side that is a basic graph pattern is not even merged with the left row,
since its solutions contain that row already.

## Theorems

* `eachSolution_lists`: The loops run through `evalPattern`.
* `eachSolution_spec`: What a consumer that runs to the end, or stops, has seen.
-/

namespace GoRdf

open Lib List

section

variable {σ : Type} {env : Env} {ctx : EvalCtx} {g : Graph}

/-- The loops over a basic graph pattern, in the order the planner chose. -/
theorem eachBGPSolution_order_lists (tps : List PatternTriple) (row : Row) :
    Lists (eachBGPSolution env.prologue g (orderBGP env.costs env.prologue g tps row) row :
        (Row → σ → Bool × σ) → σ → Bool × σ)
      (evalBGP env.costs env.prologue g tps row) := by
  rw [evalBGP_eq]
  exact eachBGPSolution_lists env.prologue g _ row

theorem evalPatternWithBindings_of_asBGP {p : Pattern} {tps : List PatternTriple}
    (h : p.asBGP = some tps) (row : Row) :
    evalPatternWithBindings env ctx g p row = evalBGP env.costs env.prologue g tps row := by
  rw [evalPatternWithBindings, h]

theorem evalPatternWithBindings_of_not_bgp {p : Pattern} (h : p.asBGP = none) (row : Row) :
    evalPatternWithBindings env ctx g p row =
      (evalPattern env ctx g p).filter (isCompatible row) := by
  rw [evalPatternWithBindings, h]

/-- A basic graph pattern has no filters at its top. -/
theorem optionalMatches_of_asBGP {p : Pattern} {tps : List PatternTriple}
    (h : p.asBGP = some tps) (mb inner : Row) :
    optionalMatches env ctx g p mb inner = evalBGP env.costs env.prologue g tps inner := by
  cases p with
  | bgp tps' =>
    rw [optionalMatches, evalPatternWithBindings_of_asBGP h]
    exact fun _ _ heq => Pattern.noConfusion heq
  | _ => cases h

/-- The streaming evaluator runs through the rows of `evalPattern`, whatever its
    consumer does. -/
theorem eachSolution_lists (p : Pattern) (yield : Row → σ → Bool × σ) (st : σ) :
    eachSolution env ctx g p yield st = forEach yield (evalPattern env ctx g p) st := by
  cases p with
  | bgp tps =>
    rw [eachSolution, evalPattern]
    exact eachBGPSolution_order_lists tps ∅ yield st
  | join l r =>
    rw [eachSolution, evalPattern, eachSolution_lists l, ← forEach_flatMap]
    refine forEach_congr (fun lb _ st => ?_) st
    cases hr : r.asBGP with
    | some tps =>
      -- The solutions contain the left row, so there is nothing to merge.
      rw [evalPatternWithBindings_of_asBGP hr, map_mergeBindings_evalBGP]
      exact eachBGPSolution_order_lists tps lb yield st
    | none => exact forEach_map yield (mergeBindings lb) _ st
  | optional m o =>
    rw [eachSolution, evalPattern, eachSolution_lists m, ← forEach_flatMap]
    refine forEach_congr (fun mb _ st => ?_) st
    dsimp only
    cases ho : o.asBGP with
    | some tps =>
      rw [optionalMatches_of_asBGP ho, map_mergeBindings_evalBGP]
      dsimp only
      rw [eachBGPSolution_order_lists, forEach_flag]
      cases hrows : evalBGP env.costs env.prologue g tps mb with
      | nil =>
        -- No match: the flag is down, and the left row is passed on.
        exact (forEach_singleton yield mb st).symm
      | cons b bs =>
        cases hran : (forEach yield (b :: bs) st).1 with
        | true | false => exact Prod.ext hran.symm rfl
    | none =>
      dsimp only
      split
      · exact (forEach_singleton yield mb st).symm
      · exact forEach_map yield (mergeBindings mb) _ st
  | union l r =>
    rw [eachSolution, evalPattern, eachSolution_lists l, eachSolution_lists r, forEach_append]
  | filter p e =>
    rw [eachSolution, evalPattern, eachSolution_lists p]
    exact forEach_filter yield _ _ st
  -- Every other pattern is evaluated first.
  | bind p e v | values vars rows | graph name p | minus l r | subquery q =>
    simp only [eachSolution]

theorem evalPatternUpTo_eq (p : Pattern) (limit : Int) :
    evalPatternUpTo env ctx g p limit =
      if limit ≤ 0 then evalPattern env ctx g p
      else (evalPattern env ctx g p).take limit.toNat := by
  rw [evalPatternUpTo]
  split
  · rfl
  · have hpos : ([] : List Row).length < limit.toNat := by
      rw [length_nil]
      omega
    rw [eachSolution_lists, forEach_takeInto _ _ _ hpos, nil_append, length_nil, Nat.sub_zero]

end

/-- A consumer sees the rows of `evalPattern` one after the other, all of them if
    it never stops. One that stops after `k` rows has seen the first `k`, and the
    evaluation reports at once that it was stopped. So `evalPatternUpTo` returns
    as many rows as it may, all of them rows of `evalPattern`. -/
theorem eachSolution_spec (env : Env) (ctx : EvalCtx) (g : Graph) (p : Pattern) :
    (∀ (σ : Type) (yield : Row → σ → Bool × σ) (st : σ),
      eachSolution env ctx g p yield st = forEach yield (evalPattern env ctx g p) st) ∧
    eachSolution env ctx g p collect [] = (true, evalPattern env ctx g p) ∧
    (∀ k, 0 < k → k ≤ (evalPattern env ctx g p).length →
      eachSolution env ctx g p (takeInto k) [] = (false, (evalPattern env ctx g p).take k)) ∧
    ∀ n : Int, 0 < n →
      (evalPatternUpTo env ctx g p n : Multiset Row) ≤ (evalPattern env ctx g p : Multiset Row) ∧
      (evalPatternUpTo env ctx g p n).length = min n.toNat (evalPattern env ctx g p).length := by
  refine ⟨fun σ yield st => eachSolution_lists p yield st, ?_, fun k hk hlen => ?_,
    fun n hn => ?_⟩
  · rw [eachSolution_lists, forEach_collect, nil_append]
  · have hstop : ¬ ([] : List Row).length + (evalPattern env ctx g p).length < k := by
      omega
    rw [eachSolution_lists, forEach_takeInto k _ [] hk, decide_eq_false hstop, nil_append,
      length_nil, Nat.sub_zero]
  · have htake : evalPatternUpTo env ctx g p n = (evalPattern env ctx g p).take n.toNat := by
      rw [evalPatternUpTo_eq, if_neg (not_le.mpr hn)]
    rw [htake]
    exact ⟨Multiset.coe_le.mpr (take_sublist _ _).subperm, length_take⟩

/-- Equality of terms, and the truth values. Nothing else has a value. -/
def plainScalars : Scalars where
  termEqual a b := some (decide (a = b))
  valueCompare _ _ := none
  negate _ := none
  extension _ := none
  builtin _ _ := none
  ebv t := if t = boolLiteral true then some true
    else if t = boolLiteral false then some false else none
  compareTermValues _ _ := 0
  isNumericTerm _ := false
  arithmetic _ _ _ := none
  sortFunc _ rows := rows
  sortFunc_perm _ rows := List.Perm.refl rows

/-- No prefixes, no base and no named graphs. -/
def plainEnv : Env where
  prologue := plainPrologue
  costs := ratCosts
  scalars := plainScalars
  resolveIRI := id
  namedGraphs := []
  nodup := nodup_nil

/-- No initial bindings. -/
def plainCtx : EvalCtx :=
  ⟨∅, false⟩

/-- Of the two rows that two empty groups make, a consumer may take one. -/
theorem eachSolution_union_empty :
    evalPattern plainEnv plainCtx crossGraph (.union (.bgp []) (.bgp [])) = [∅, ∅] ∧
    eachSolution plainEnv plainCtx crossGraph (.union (.bgp []) (.bgp [])) (takeInto 1) [] =
      (false, [∅]) ∧
    (evalPatternUpTo plainEnv plainCtx crossGraph (.union (.bgp []) (.bgp [])) 1).length = 1 := by
  obtain ⟨-, -, hstop, hlimit⟩ :=
    eachSolution_spec plainEnv plainCtx crossGraph (.union (.bgp []) (.bgp []))
  have hrows : evalPattern plainEnv plainCtx crossGraph (.union (.bgp []) (.bgp [])) = [∅, ∅] := by
    simp only [evalPattern]
    rfl
  rw [hrows] at hstop hlimit
  exact ⟨hrows, hstop 1 Nat.one_pos (by decide), (hlimit 1 Int.one_pos).2⟩

end GoRdf
