import GoRdf.Theory.Stream

/-!
# Queries of One Triple Pattern

What a queryable store answers for a query of one triple pattern, compared with
what the evaluator answers.

The store is asked for the bare pattern: its constants, as far as they can stand
where they are, and nothing of the initial bindings. It matches every triple the
evaluator matches, and more if a constant was dropped or an initial binding
would have to be respected.

## Main definitions

* `allSolutions`: The solutions of a query's pattern under initial bindings.
* `visible`: The part of a solution that a projection shows.

## Theorems

* `allSolutions_of_simple`: The solutions of one triple pattern.
* `mem_bare_of_fits`: The bare pattern matches what the evaluator matches.
* `bindings_pageQuery`: What is left of `evalSelect` without grouping, ordering
  and `DISTINCT`.
-/

namespace GoRdf

open Lib List
open scoped List

/-! ## One triple pattern -/

section

variable {pl : Prologue} {g : Graph} {s p o : PatternTerm}

theorem extractSimpleBGP_eq_some {P : Pattern} (h : extractSimpleBGP P = some (s, p, o)) :
    P = .bgp [⟨s, .term p, o⟩] ∧ s.isVarTripleTerm = false ∧ o.isVarTripleTerm = false := by
  unfold extractSimpleBGP at h
  split at h
  · split at h
    · cases h
    · rename_i hvar
      obtain ⟨rfl, rfl, rfl⟩ := h
      rw [Bool.not_eq_true, Bool.or_eq_false_iff] at hvar
      exact ⟨rfl, hvar⟩
  · cases h

theorem evalBGP_singleton (K : Costs) (tp : PatternTriple) (row : Row) :
    evalBGP K pl g [tp] row = matchRows pl g tp row := by
  have horder : orderBGP K pl g [tp] row = [tp] := if_pos Nat.one_lt_two
  have hlast : bgpSolutions pl g [] = fun row => [row] := funext fun _ => rfl
  rw [evalBGP_eq, horder, bgpSolutions, hlast, flatMap_singleton']

/-- The bare pattern matches every triple that fits, whatever is bound. -/
theorem mem_bare_of_fits {row : Row} {t : Triple} (ht : t ∈ g.all)
    (h : PatternTriple.Fits pl row ⟨s, .term p, o⟩ t) :
    t ∈ g.triples (buildStorePattern pl s p o) := by
  have hfits : ∀ e ∈ PatternTriple.occurrences ⟨s, .term p, o⟩ t,
      ∀ x, resolvePatternTerm pl ∅ e.1 = some x → x = e.2 :=
    fun e he x hx => h e he x (resolve_mono (extends_empty row) hx)
  simp only [PatternTriple.occurrences, mem_cons, not_mem_nil, or_false,
    forall_eq_or_imp, forall_eq] at hfits
  refine (g.mem_iff _ t).mpr ⟨ht, ?_⟩
  rw [buildStorePattern]
  cases hrs : resolvePatternTerm pl ∅ s <;> cases hrp : resolvePatternTerm pl ∅ p <;>
    cases hro : resolvePatternTerm pl ∅ o <;>
    simp_all [TriplePatternOf.matches, TermOf.asSubject, TermOf.asURIRef, URIRefOf.toTerm]

theorem fittingTriples_subperm_bare (row : Row) :
    fittingTriples pl g ⟨s, .term p, o⟩ row <+~ g.triples (buildStorePattern pl s p o) := by
  refine subperm_of_subset (nodup_fittingTriples _ _ _ _) fun t ht => ?_
  rw [mem_fittingTriples] at ht
  exact mem_bare_of_fits ht.1 ht.2

/-- If every triple of the bare pattern fits, these are the triples that fit. -/
theorem fittingTriples_perm_bare {row : Row}
    (h : ∀ t ∈ g.triples (buildStorePattern pl s p o),
      PatternTriple.Fits pl row ⟨s, .term p, o⟩ t) :
    fittingTriples pl g ⟨s, .term p, o⟩ row ~ g.triples (buildStorePattern pl s p o) :=
  (fittingTriples_subperm_bare row).antisymm (subperm_of_subset (g.nodup _) fun t ht =>
    mem_fittingTriples.mpr ⟨((g.mem_iff _ t).mp ht).1, h t ht⟩)

/-- The bare pattern has as many matches as the pattern exactly when all of them fit. -/
theorem length_fittingTriples_eq_iff {row : Row} :
    (g.triples (buildStorePattern pl s p o)).length =
        (fittingTriples pl g ⟨s, .term p, o⟩ row).length ↔
      ∀ t ∈ g.triples (buildStorePattern pl s p o),
        PatternTriple.Fits pl row ⟨s, .term p, o⟩ t := by
  constructor
  · intro hlen t ht
    have hperm := (fittingTriples_subperm_bare row).perm_of_length_le hlen.le
    exact (mem_fittingTriples.mp (hperm.mem_iff.mpr ht)).2
  · exact fun hfit => (fittingTriples_perm_bare hfit).length_eq.symm

end

/-! ## Solutions under initial bindings -/

/-- The solutions of a pattern under initial bindings: those of `evalQuery`, all of
    them. -/
def allSolutions (env : Env) (ctx : EvalCtx) (g : Graph) (p : Pattern) (init : Row) : List Row :=
  if init = ∅ then evalPattern env ctx g p
  else (evalPatternPreBound env ctx g p init).map fun s => s ∪ init

section

variable {env : Env} {ctx : EvalCtx} {g : Graph} {init : Row} {vars : Option (List String)}
  {aliases : List String} {p : Pattern} {having : Option Expr} {limit offset : Int}
  {n : Option Nat} {k : Nat}

theorem allSolutions_bgp (tps : List PatternTriple) :
    allSolutions env ctx g (.bgp tps) init = evalBGP env.costs env.prologue g tps init := by
  rw [allSolutions]
  split
  · rename_i hinit
    rw [evalPattern, hinit]
  · -- The initial bindings are part of every solution already.
    rw [evalPatternPreBound]
    exact map_mergeBindings_evalBGP

theorem allSolutions_of_simple {s p o : PatternTerm} (hs : s.isVarTripleTerm = false)
    (ho : o.isVarTripleTerm = false) :
    allSolutions env ctx g (.bgp [⟨s, .term p, o⟩]) init =
      (fittingTriples env.prologue g ⟨s, .term p, o⟩ init).map fun t =>
        bindAll (PatternTriple.occurrences ⟨s, .term p, o⟩ t) init := by
  rw [allSolutions_bgp, evalBGP_singleton, matchRows_eq_map env.prologue g hs ho]

/-! ## Projection -/

/-- The variable is among those a projection shows; `SELECT *` shows all but the
    parser's own. -/
def Shows : Option (List String) → String → Prop
  | none, v => isInternalVar v = false
  | some vs, v => v ∈ vs

instance (vars : Option (List String)) (v : String) : Decidable (Shows vars v) :=
  match vars with
  | none => inferInstanceAs (Decidable (isInternalVar v = false))
  | some vs => inferInstanceAs (Decidable (v ∈ vs))

/-- The part of a solution that a projection shows. -/
noncomputable def visible (vars : Option (List String)) (row : Row) : Row :=
  projectRow (row.keys.toList.filter fun v => Shows vars v) row

theorem lookup_visible (vars : Option (List String)) (row : Row) (v : String) :
    (visible vars row).lookup v = if Shows vars v then row.lookup v else none := by
  rw [visible, lookup_projectRow]
  by_cases hv : v ∈ row
  · simp only [mem_filter, Finset.mem_toList, Finmap.mem_keys, hv, true_and, decide_eq_true_eq]
  · rw [Finmap.lookup_eq_none.mpr hv, ite_self, ite_self]

/-- The variables that rows carry. -/
theorem mem_carried {v : String} (rows : List Row) (vs : Finset String) :
    v ∈ rows.foldl (fun vs row => vs ∪ row.keys) vs ↔ v ∈ vs ∨ ∃ row ∈ rows, v ∈ row :=
  Lib.foldl_iff (M := (v ∈ ·)) (fun _ _ => by rw [Finset.mem_union, Finmap.mem_keys]) rows vs

theorem mem_selectStarVars {rows : List Row} {v : String} :
    v ∈ selectStarVars p rows ↔
      (v ∈ p.inScopeVars ∨ ∃ row ∈ rows, v ∈ row) ∧ isInternalVar v = false := by
  simp only [selectStarVars, sortStrings, mem_filter, mem_append, Multiset.mem_sort,
    Finset.mem_val, Finset.mem_filter, mem_carried, Finset.notMem_empty, false_or,
    Bool.not_eq_true']
  by_cases hv : v ∈ p.inScopeVars <;> simp [hv]

/-- Projected rows show what is visible of each. What else other rows carry makes
    no difference. -/
theorem map_projectRow_eq_visible (vars : Option (List String)) (p : Pattern) (rows : List Row) :
    rows.map (projectRow (vars.getD (selectStarVars p rows))) = rows.map (visible vars) := by
  refine map_congr_left fun row hrow => Finmap.ext_lookup fun v => ?_
  rw [lookup_projectRow, lookup_visible]
  cases vars with
  | some vs => rfl
  | none =>
    by_cases hv : v ∈ row
    · have hiff : v ∈ selectStarVars p rows ↔ Shows none v := by
        rw [mem_selectStarVars]
        exact ⟨And.right, fun h => ⟨.inr ⟨row, hrow, hv⟩, h⟩⟩
      simp only [Option.getD_none, hiff]
    · rw [Finmap.lookup_eq_none.mpr hv, ite_self, ite_self]

/-! ## Paging -/

/-- A `SELECT` without grouping, aggregates, projection expressions, `ORDER BY` and
    `DISTINCT`. -/
def pageQuery (vars : Option (List String)) (aliases : List String) (p : Pattern)
    (having : Option Expr) (limit offset : Int) : Query :=
  .mk ⟨.select, false, vars, limit, offset, aliases⟩ p [] [] having []

theorem evalPatternUpTo_zero : evalPatternUpTo env ctx g p 0 = evalPattern env ctx g p := by
  rw [evalPatternUpTo_eq, if_pos le_rfl]

/-- Without projection expressions a solution stays as it is. -/
theorem map_projectExprs_nil (rows : List Row) :
    rows.map (fun s => projectExprs env ctx g [] s) = rows := by
  refine (map_congr_left fun s _ => ?_).trans rows.map_id
  rw [projectExprs]
  rfl

theorem bindings_pageQuery :
    (evalQuery env ctx g (pageQuery vars aliases p having limit offset) init).bindings =
      ((limitPushdown env g (pageQuery vars aliases p having limit offset)).getD
        (sliceRows offset limit (if init = ∅ then evalPatternUpTo env ctx g p
            (pushdownLimit (pageQuery vars aliases p having limit offset))
          else (evalPatternPreBound env ctx g p init).map fun s => s ∪ init))).map
        (visible vars) := by
  rw [pageQuery, evalQuery, evalSelect]
  simp only [isEmpty_nil, Bool.not_true, Bool.false_eq_true, if_false, if_true,
    map_projectExprs_nil, Result.bindings]
  exact map_projectRow_eq_visible vars p _

/-! ## Pages of solutions -/

/-- `LIMIT` as a query holds it. -/
def limitOf (n : Option Nat) : Int :=
  n.elim (-1) fun n => n

/-- What `OFFSET` and `LIMIT` leave of a list. -/
def page {α : Type} (n : Option Nat) (k : Nat) (xs : List α) : List α :=
  match n with
  | none => xs.drop k
  | some n => (xs.drop k).take n

/-- How many elements that should be. -/
def pageLength (n : Option Nat) (k total : Nat) : Nat :=
  match n with
  | none => total - k
  | some n => min n (total - k)

theorem length_page {α : Type} (n : Option Nat) (k : Nat) (xs : List α) :
    (page n k xs).length = pageLength n k xs.length := by
  cases n with
  | none => exact length_drop
  | some n => rw [page, pageLength, length_take, length_drop]

theorem page_sublist {α : Type} (n : Option Nat) (k : Nat) (xs : List α) :
    (page n k xs).Sublist xs := by
  cases n with
  | none => exact drop_sublist k xs
  | some n => exact (take_sublist n _).trans (drop_sublist k xs)

theorem sliceRows_eq_page (n : Option Nat) (k : Nat) (rows : List Row) :
    sliceRows k (limitOf n) rows = page n k rows := by
  have hdrop : (if (0 : Int) < k then rows.drop (k : Int).toNat else rows) = rows.drop k := by
    split
    · rw [Int.toNat_natCast]
    · have hk : k = 0 := by omega
      rw [hk, drop_zero]
  cases n with
  | none => exact hdrop
  | some n =>
    rw [sliceRows, hdrop]
    rfl

/-- The store makes the page of a single triple pattern, if there is something to cut off and
    nothing else to do. -/
theorem limitPushdown_eq {q : Query} (hlimit : q.modifiers.limit = limitOf n)
    (hoffset : q.modifiers.offset = k) :
    limitPushdown env g q =
      if n.isSome || decide (0 < k) then
        if q.orderBy.isEmpty && !q.modifiers.distinct && q.groupBy.isEmpty && !hasAggregates q &&
          q.projectExprs.isEmpty then
          (extractSimpleBGP q.pattern).bind fun tp => g.queryable.map fun qs =>
            (qs.triplesWithLimit (buildStorePattern env.prologue tp.1 tp.2.1 tp.2.2)
              (n.getD 0 : Nat) k).map (pageRow tp.1 tp.2.1 tp.2.2)
        else none
      else none := by
  have hcut : decide (0 ≤ limitOf n) = n.isSome := by
    cases n with
    | none => rfl
    | some n => exact decide_eq_true (Int.natCast_nonneg n)
  -- No limit is written as −1, and the store is told 0 for it.
  have hstore : (if limitOf n < 0 then 0 else limitOf n) = ((n.getD 0 : Nat) : Int) := by
    cases n with
    | none => rfl
    | some n => exact if_neg (not_lt.mpr (Int.natCast_nonneg n))
  rw [limitPushdown, hlimit, hoffset, hcut, hstore]
  simp only [Int.natCast_pos, Bool.and_assoc]
  cases n.isSome || decide (0 < k) with
  | false => rfl
  | true => cases extractSimpleBGP q.pattern <;> cases g.queryable <;> rfl

theorem pushdownLimit_pageQuery :
    pushdownLimit (pageQuery vars aliases p having limit offset) =
      if decide (limit ≤ 0) || having.isSome then 0 else offset + limit := by
  have hcond : (decide (limit ≤ 0) || !true || false || !true || false || having.isSome) =
      (decide (limit ≤ 0) || having.isSome) := by
    simp only [Bool.not_true, Bool.or_false]
  exact congrArg (fun b : Bool => if b then (0 : Int) else offset + limit) hcond

/-- Stopping the evaluation at the end of the page does not change the page. -/
theorem page_solutions :
    page n k
      (if init = ∅ then evalPatternUpTo env ctx g p
        (pushdownLimit (pageQuery vars aliases p having (limitOf n) k))
      else (evalPatternPreBound env ctx g p init).map fun s => s ∪ init) =
      page n k (allSolutions env ctx g p init) := by
  rw [allSolutions]
  split
  · rw [evalPatternUpTo_eq, pushdownLimit_pageQuery]
    by_cases hcond : (decide (limitOf n ≤ 0) || having.isSome) = true
    · rw [if_pos hcond, if_pos le_rfl]
    · rw [if_neg hcond]
      split
      · rfl
      · rw [Bool.not_eq_true, Bool.or_eq_false_iff, decide_eq_false_iff_not] at hcond
        cases n with
        | none => exact absurd (by decide) hcond.1
        | some n =>
          have hnat : ((k : Int) + limitOf (some n)).toNat = k + n := by
            rw [limitOf, Option.elim_some]
            omega
          rw [hnat, page, page, drop_take, take_take, Nat.add_sub_cancel_left, Nat.min_self]
  · rfl

end

end GoRdf
