import GoRdf.Theory.Paging

/-!
# `ASK` and `COUNT` in the Store

`ASK` over one triple pattern becomes `Exists`, and a single `COUNT` over one
becomes `Count`. Both ask for the bare pattern, so they answer as the evaluator
would if the initial bindings and the constants leave a match where there is one,
or leave all, respectively. `COUNT` does not look at `HAVING`.

## Main definitions

* `askInMemory`, `countInMemory`: The answers from evaluated solutions.
* `AsksExactly`, `CountsExactly`: When the store's answers are the same.

## Theorems

* `aggregateGroups_countQuery`: Counting in memory counts the solutions.
* `pushdown_agrees_iff`: The store's answers agree exactly under these conditions.
-/

namespace GoRdf

open Lib List Option Finmap
open scoped List

/-! ## The queries -/

/-- `ASK { tp }`, with whatever else the query says. -/
def askQuery (m : Modifiers) (tp : PatternTriple) (projs : List ProjectExpr) (groupBy : List Expr)
    (having : Option Expr) (orderBy : List OrderExpr) : Query :=
  .mk { m with type := .ask } (.bgp [tp]) projs groupBy having orderBy

/-- `COUNT(*)`, or `COUNT` of a variable. -/
def countCall (arg : Option String) : Func :=
  ⟨.aggregate .count, false, arg.isNone, "", ""⟩

/-- Its argument. -/
def countArgs (arg : Option String) : List Expr :=
  arg.elim [] fun v => [.var v]

/-- `SELECT (COUNT(arg) AS ?c) { tp } HAVING having`. -/
def countQuery (arg : Option String) (c : String) (aliases : List String) (tp : PatternTriple)
    (having : Option Expr) : Query :=
  .mk ⟨.select, false, some [c], -1, 0, aliases⟩ (.bgp [tp])
    [.mk (.func (countCall arg) (countArgs arg)) c] [] having []

/-- The answer to `ASK` from the solutions. -/
def askInMemory (env : Env) (ctx : EvalCtx) (g : Graph) (tp : PatternTriple) (init : Row) :
    Result :=
  .ask !(allSolutions env ctx g (.bgp [tp]) init).isEmpty

/-- The answer to `COUNT` from the solutions. -/
def countInMemory (env : Env) (ctx : EvalCtx) (g : Graph) (arg : Option String) (c : String)
    (aliases : List String) (tp : PatternTriple) (having : Option Expr) (init : Row) : Result :=
  let rows := aggregateGroups env ctx g (countQuery arg c aliases tp having)
    (allSolutions env ctx g (.bgp [tp]) init)
  let rows := rows.map fun row =>
    projectExprs env ctx g (countQuery arg c aliases tp having).projectExprs row
  .select [c] (rows.map (projectRow [c]))

/-- If the store is asked and has a match for the bare pattern, there is one that fits
    the initial bindings and has the pattern's constants. -/
def AsksExactly (env : Env) (g : Graph) (tp : PatternTriple) (init : Row) : Prop :=
  ∀ s p o, extractSimpleBGP (.bgp [tp]) = some (s, p, o) → g.queryable.isSome = true →
    g.triples (buildStorePattern env.prologue s p o) ≠ [] →
    ∃ t ∈ g.all, tp.Fits env.prologue init t

/-- If the store is asked, every match for the bare pattern has the pattern's
    constants, and `HAVING` is true of the group of all solutions. -/
def CountsExactly (env : Env) (ctx : EvalCtx) (g : Graph) (arg : Option String)
    (tp : PatternTriple) (having : Option Expr) : Prop :=
  ∀ s p o, extractSimpleBGP (.bgp [tp]) = some (s, p, o) → g.queryable.isSome = true →
    ctx.pre = ∅ → countsPatternRows (countCall arg) (countArgs arg) s p o = true →
    (∀ t ∈ g.triples (buildStorePattern env.prologue s p o), tp.Fits env.prologue ∅ t) ∧
      keepsGroup env ctx g having (allSolutions env ctx g (.bgp [tp]) ∅) = true

/-! ## Evaluation -/

section

variable {env : Env} {ctx : EvalCtx} {g : Graph} {tp : PatternTriple} {init : Row}
  {m : Modifiers} {projs : List ProjectExpr} {groupBy : List Expr} {orderBy : List OrderExpr}
  {arg : Option String} {c : String} {aliases : List String} {having : Option Expr}

theorem isEmpty_solutions (p : Pattern) (limit : Int) :
    (if init = ∅ then evalPatternUpTo env ctx g p limit
      else (evalPatternPreBound env ctx g p init).map fun s => s ∪ init).isEmpty =
      (allSolutions env ctx g p init).isEmpty := by
  rw [allSolutions]
  split
  · rw [evalPatternUpTo_eq]
    split
    · rfl
    · rename_i hpos
      rw [Bool.eq_iff_iff, List.isEmpty_iff, List.isEmpty_iff, take_eq_nil_iff]
      exact or_iff_right (by omega)
  · rfl

theorem evalQuery_askQuery :
    evalQuery env ctx g (askQuery m tp projs groupBy having orderBy) init =
      .ask (((extractSimpleBGP (.bgp [tp])).bind fun tp => g.queryable.map fun qs =>
        qs.hasMatch (buildStorePattern env.prologue tp.1 tp.2.1 tp.2.2)).getD
          !(allSolutions env ctx g (.bgp [tp]) init).isEmpty) := by
  rw [askQuery, evalQuery]
  rw [← isEmpty_solutions (.bgp [tp]) 1, askPushdown, Query.pattern]
  cases extractSimpleBGP (.bgp [tp]) <;> cases g.queryable <;> rfl

/-- There is a solution where a triple fits. -/
theorem allSolutions_ne_nil_iff {s p o : PatternTerm}
    (hsimple : extractSimpleBGP (.bgp [tp]) = some (s, p, o)) :
    allSolutions env ctx g (.bgp [tp]) init ≠ [] ↔ ∃ t ∈ g.all, tp.Fits env.prologue init t := by
  obtain ⟨⟨rfl, -⟩, hs, ho⟩ := extractSimpleBGP_eq_some hsimple
  rw [allSolutions_of_simple hs ho, Ne, map_eq_nil_iff]
  constructor
  · intro hne
    obtain ⟨t, ht⟩ := exists_mem_of_ne_nil _ hne
    exact ⟨t, mem_fittingTriples.mp ht⟩
  · rintro ⟨t, ht, hfits⟩
    exact ne_nil_of_mem (mem_fittingTriples.mpr ⟨ht, hfits⟩)

/-- The store finds a match exactly when the evaluator does. -/
theorem ask_agrees_iff :
    evalQuery env ctx g (askQuery m tp projs groupBy having orderBy) init =
        askInMemory env ctx g tp init ↔ AsksExactly env g tp init := by
  rw [evalQuery_askQuery, askInMemory, Result.ask.injEq, AsksExactly]
  cases hsimple : extractSimpleBGP (.bgp [tp]) with
  | none => simp
  | some parts =>
    cases hqs : g.queryable with
    | none => simp
    | some qs =>
      obtain ⟨s, p, o⟩ := parts
      have hiff := @allSolutions_ne_nil_iff env ctx g tp init s p o hsimple
      -- The store matches a wider pattern, so it can only find too much.
      have hbare : (∃ t ∈ g.all, tp.Fits env.prologue init t) →
          g.triples (buildStorePattern env.prologue s p o) ≠ [] := by
        rintro ⟨t, ht, hfits⟩
        obtain ⟨⟨rfl, -⟩, -, -⟩ := extractSimpleBGP_eq_some hsimple
        exact ne_nil_of_mem (mem_bare_of_fits ht hfits)
      have hlaw := qs.hasMatch_spec (buildStorePattern env.prologue s p o)
      simp only [bind_some, map_some, getD_some, hlaw,
        Bool.not_inj_iff, isSome_some, some.injEq, Prod.mk.injEq]
      rw [Bool.eq_iff_iff, List.isEmpty_iff, List.isEmpty_iff]
      constructor
      · rintro hsame s' p' o' ⟨rfl, rfl, rfl⟩ - hne
        exact hiff.mp fun hnil => hne (hsame.mpr hnil)
      · intro hexact
        refine ⟨fun hnil => ?_, fun hnil => ?_⟩
        · by_contra hsome
          exact hbare (hiff.mp hsome) hnil
        · by_contra hsome
          exact hiff.mpr (hexact s p o ⟨rfl, rfl, rfl⟩ trivial hsome) hnil

/-! ## Counting -/

/-- Without `GROUP BY` the solutions are one group. -/
theorem foldl_addToGroup_const (key : String) (keyBinds : Row) (first : Row) (rows : List Row)
    (members : List Row) :
    rows.foldl (fun groups s => addToGroup key keyBinds s groups)
        [⟨key, keyBinds, first :: members⟩] =
      [⟨key, keyBinds, first :: members ++ rows⟩] := by
  induction rows generalizing members with
  | nil => simp
  | cons row rows ih =>
    have hstep : addToGroup key keyBinds row [⟨key, keyBinds, first :: members⟩] =
        [⟨key, keyBinds, first :: (members ++ [row])⟩] := by simp [addToGroup]
    rw [foldl_cons, hstep, ih]
    simp

/-- A variable that every row binds has as many values as there are rows. -/
theorem length_values {v : String} {group : List Row} (hbound : ∀ row ∈ group, v ∈ row) :
    (group.filterMap fun row => evalExpr env ctx g (.var v) row).length = group.length := by
  rw [length_filterMap_eq_countP, countP_eq_length]
  intro row hrow
  rw [evalExpr, isSome_or, lookup_isSome.mpr (hbound row hrow)]
  rfl

/-- `COUNT` of a group in which every row has a value counts the rows. -/
theorem evalAggExpr_countCall (arg : Option String) (group : List Row)
    (hbound : ∀ v ∈ arg, ∀ row ∈ group, v ∈ row) :
    evalAggExpr env ctx g (.func (countCall arg) (countArgs arg)) group =
      some (integerLiteral group.length) := by
  cases arg with
  | none =>
    rw [evalAggExpr.eq_def]
    simp [countCall, aggregateValue]
  | some v =>
    rw [evalAggExpr.eq_def]
    simp [countCall, countArgs, aggregateValue, length_values (hbound v rfl)]

/-- Outside aggregation an aggregate has no value. -/
theorem evalExpr_countCall (arg : Option String) (row : Row) :
    evalExpr env ctx g (.func (countCall arg) (countArgs arg)) row = none := by
  have hext : env.scalars.extensionFunc (countCall arg) = none := if_pos rfl
  rw [evalExpr, callFunc.eq_def, hext]
  rfl

theorem integerLiteral_injective {a b : Nat} (h : integerLiteral a = integerLiteral b) : a = b := by
  have hdigits : String.ofList (Nat.toDigits 10 a) = String.ofList (Nat.toDigits 10 b) := by
    simpa [integerLiteral, typedLiteral, Nat.repr_eq_ofList_toDigits] using h
  exact Lib.toDigits_injective (String.ofList_injective hdigits)

/-- Counting in memory counts the solutions, if `HAVING` keeps their group. -/
theorem aggregateGroups_countQuery {sols : List Row} (hbound : ∀ v ∈ arg, ∀ row ∈ sols, v ∈ row) :
    aggregateGroups env ctx g (countQuery arg c aliases tp having) sols =
      if keepsGroup env ctx g having sols then
        [(∅ : Row).insert c (integerLiteral sols.length)] else [] := by
  have hagg : hasAggregates (countQuery arg c aliases tp having) = true := rfl
  have hproj : aggProject env ctx g [.mk (.func (countCall arg) (countArgs arg)) c] sols ∅ =
      (∅ : Row).insert c (integerLiteral sols.length) := by
    rw [aggProject, aggProject, evalAggExpr_countCall arg sols hbound]
    rfl
  -- No solution and some solutions both make one group, of all of them.
  have hgroups : ∃ key, aggregateGroups env ctx g (countQuery arg c aliases tp having) sols =
      ([(⟨key, ∅, sols⟩ : Group)].filter fun grp => keepsGroup env ctx g having grp.members).map
        fun grp =>
        aggProject env ctx g [.mk (.func (countCall arg) (countArgs arg)) c] grp.members
          grp.keyBinds := by
    rw [countQuery] at hagg ⊢
    rw [aggregateGroups]
    simp only [groupKey]
    cases sols with
    | nil => exact ⟨"", rfl⟩
    | cons row rows =>
      refine ⟨"|".intercalate [], ?_⟩
      rw [foldl_cons, addToGroup, foldl_addToGroup_const]
      rfl
  obtain ⟨key, hgroups⟩ := hgroups
  rw [hgroups, filter_singleton]
  cases keepsGroup env ctx g having sols with
  | false => rfl
  | true => exact (congrArg (· :: []) hproj).trans (if_pos rfl).symm

theorem projectExprs_countCall (row : Row) :
    projectExprs env ctx g [.mk (.func (countCall arg) (countArgs arg)) c] row = row := by
  rw [projectExprs, projectExprs, evalExpr_countCall]
  rfl

/-- The rows counted in memory need no further projection expressions. -/
theorem countInMemory_eq :
    countInMemory env ctx g arg c aliases tp having init =
      .select [c] ((aggregateGroups env ctx g (countQuery arg c aliases tp having)
        (allSolutions env ctx g (.bgp [tp]) init)).map (projectRow [c])) := by
  have hprojs : (countQuery arg c aliases tp having).projectExprs =
      [.mk (.func (countCall arg) (countArgs arg)) c] := rfl
  rw [countInMemory, hprojs]
  simp only [projectExprs_countCall, List.map_id']

theorem evalQuery_countQuery :
    evalQuery env ctx g (countQuery arg c aliases tp having) init =
      match countPushdown env ctx g (countQuery arg c aliases tp having) with
      | some row => .select [c] [projectRow [c] row]
      | none => countInMemory env ctx g arg c aliases tp having init := by
  have hagg : hasAggregates (countQuery arg c aliases tp having) = true := rfl
  have hlimit : pushdownLimit (countQuery arg c aliases tp having) = 0 := rfl
  have hpage : limitPushdown env g (countQuery arg c aliases tp having) = none := rfl
  have hall : (if init = ∅ then evalPatternUpTo env ctx g (.bgp [tp]) 0
      else (evalPatternPreBound env ctx g (.bgp [tp]) init).map fun s => s ∪ init) =
      allSolutions env ctx g (.bgp [tp]) init := by
    rw [evalPatternUpTo_zero]
    rfl
  rw [countInMemory_eq]
  rw [countQuery] at hagg hlimit hpage ⊢
  rw [evalQuery]
  rw [hlimit, hall, evalSelect]
  rw [hagg, hpage, Bool.or_true, if_pos rfl, evalAggregation]
  simp only [projectExprs_countCall, List.map_id']
  cases countPushdown env ctx g (.mk ⟨.select, false, some [c], -1, 0, aliases⟩ (.bgp [tp])
    [.mk (.func (countCall arg) (countArgs arg)) c] [] having []) with
  | some row | none => rfl

theorem countPushdown_countQuery :
    countPushdown env ctx g (countQuery arg c aliases tp having) =
      if ctx.pre = ∅ then
        (extractSimpleBGP (.bgp [tp])).bind fun tp =>
          if countsPatternRows (countCall arg) (countArgs arg) tp.1 tp.2.1 tp.2.2 then
            g.queryable.map fun qs => (∅ : Row).insert c
              (integerLiteral (qs.count (buildStorePattern env.prologue tp.1 tp.2.1 tp.2.2)))
          else none
      else none := by
  have hcall : (ctx.pre = ∅ ∧ (countCall arg).name = .aggregate .count ∧
      (countCall arg).distinct = false) = (ctx.pre = ∅) :=
    propext ⟨And.left, fun h => ⟨h, rfl, rfl⟩⟩
  rw [countQuery, countPushdown]
  dsimp only [Query.groupBy, Query.projectExprs, Query.pattern]
  simp only [hcall]
  cases extractSimpleBGP (.bgp [tp]) with
  | none => rfl
  | some parts => cases g.queryable <;> rfl

/-- A call that counts the matches counts all, or a variable that has a value in every
    solution. -/
theorem counts_cases {f : Func} {args : List Expr} {s p o : PatternTerm} {P : Pattern}
    (hsimple : extractSimpleBGP P = some (s, p, o))
    (hcounts : countsPatternRows f args s p o = true) :
    f.star = true ∨ ∃ v, args = [.var v] ∧ ∀ row ∈ allSolutions env ctx g P init, v ∈ row := by
  unfold countsPatternRows at hcounts
  rw [Bool.or_eq_true] at hcounts
  refine hcounts.imp_right fun hvar => ?_
  split at hvar
  · rename_i v
    refine ⟨v, rfl, fun row hrow => ?_⟩
    obtain ⟨rfl, hs, ho⟩ := extractSimpleBGP_eq_some hsimple
    rw [allSolutions_of_simple hs ho, List.mem_map] at hrow
    obtain ⟨t, -, rfl⟩ := hrow
    have hpos : PatternTerm.var v ∈ [s, p, o] := by
      simp only [Bool.or_eq_true, beq_iff_eq] at hvar
      rcases hvar with (rfl | rfl) | rfl <;> simp
    exact mem_bindAll.mpr (.inr (var_mem_iff_met.mp hpos))
  · cases hvar

/-- The variable that is counted has a value in every solution. -/
theorem mem_of_countsPatternRows {s p o : PatternTerm}
    (hsimple : extractSimpleBGP (.bgp [tp]) = some (s, p, o))
    (hcounts : countsPatternRows (countCall arg) (countArgs arg) s p o = true) {v : String}
    (hv : v ∈ arg) {row : Row} (hrow : row ∈ allSolutions env ctx g (.bgp [tp]) init) :
    v ∈ row := by
  obtain rfl := mem_def.mp hv
  rcases counts_cases hsimple hcounts with hstar | ⟨w, hargs, hbound⟩
  · cases hstar
  · obtain rfl : v = w := by simpa [countArgs] using hargs
    exact hbound row hrow

theorem projectRow_insert_empty (x : Term) :
    projectRow [c] ((∅ : Row).insert c x) = (∅ : Row).insert c x := by
  refine ext_lookup fun v => ?_
  rw [lookup_projectRow]
  split
  · rfl
  · rename_i hv
    rw [lookup_insert_of_ne _ fun h => hv (mem_singleton.mpr h), lookup_empty]

/-- What the store counts is what is counted in memory exactly when every match fits
    and the group stays. -/
theorem select_count_eq_iff {s p o : PatternTerm}
    (hsimple : extractSimpleBGP (.bgp [tp]) = some (s, p, o))
    (hcounts : countsPatternRows (countCall arg) (countArgs arg) s p o = true) :
    .select [c] [projectRow [c] ((∅ : Row).insert c (integerLiteral
        (g.triples (buildStorePattern env.prologue s p o)).length))] =
        countInMemory env ctx g arg c aliases tp having init ↔
      (∀ t ∈ g.triples (buildStorePattern env.prologue s p o), tp.Fits env.prologue init t) ∧
        keepsGroup env ctx g having (allSolutions env ctx g (.bgp [tp]) init) = true := by
  have hgroups : aggregateGroups env ctx g (countQuery arg c aliases tp having)
      (allSolutions env ctx g (.bgp [tp]) init) = _ :=
    aggregateGroups_countQuery fun v hv row hrow =>
      mem_of_countsPatternRows hsimple hcounts hv hrow
  rw [countInMemory_eq, hgroups]
  obtain ⟨⟨rfl, -⟩, hs, ho⟩ := extractSimpleBGP_eq_some hsimple
  have hlength : (allSolutions env ctx g (.bgp [⟨s, .term p, o⟩]) init).length =
      (fittingTriples env.prologue g ⟨s, .term p, o⟩ init).length := by
    rw [allSolutions_of_simple hs ho, length_map]
  rw [hlength, ← length_fittingTriples_eq_iff]
  -- If `HAVING` drops the group, memory answers with no row at all, and the store with one.
  cases keepsGroup env ctx g having (allSolutions env ctx g (.bgp [⟨s, .term p, o⟩]) init) with
  | false => simp
  | true =>
    rw [if_pos rfl, map_singleton, projectRow_insert_empty, projectRow_insert_empty]
    constructor
    · intro h
      simp only [Result.select.injEq, List.cons.injEq, true_and, and_true] at h
      have hvalue := congrArg (Finmap.lookup c) h
      rw [lookup_insert, lookup_insert] at hvalue
      exact ⟨integerLiteral_injective (some.inj hvalue), rfl⟩
    · rintro ⟨hlen, -⟩
      rw [hlen]

theorem count_agrees_iff (ctx : EvalCtx) :
    evalQuery env ctx g (countQuery arg c aliases tp having) ctx.pre =
        countInMemory env ctx g arg c aliases tp having ctx.pre ↔
      CountsExactly env ctx g arg tp having := by
  rw [evalQuery_countQuery, countPushdown_countQuery, CountsExactly]
  by_cases hpre : ctx.pre = ∅
  swap
  · simp [hpre]
  rw [if_pos hpre]
  cases hsimple : extractSimpleBGP (.bgp [tp]) with
  | none => simp
  | some parts =>
    obtain ⟨s, p, o⟩ := parts
    rw [bind_some]
    by_cases hcounts : countsPatternRows (countCall arg) (countArgs arg) s p o = true
    · cases hqs : g.queryable with
      | none => simp [hcounts]
      | some qs =>
        rw [if_pos hcounts, map_some, qs.count_spec]
        refine (select_count_eq_iff hsimple hcounts).trans ?_
        rw [hpre]
        constructor
        · rintro hexact s' p' o' hparts - - -
          obtain ⟨rfl, rfl, rfl⟩ := by simpa using hparts
          exact hexact
        · exact fun hexact => hexact s p o rfl rfl rfl hcounts
    · rw [if_neg hcounts]
      refine iff_of_true rfl fun s' p' o' hparts _ _ hcounts' => ?_
      obtain ⟨rfl, rfl, rfl⟩ := by simpa using hparts
      exact absurd hcounts' hcounts

end

/-- `ASK` and a lone `COUNT` over one triple pattern answer through the store as they
    do in memory exactly when the store's matches for the bare pattern stand for the
    pattern's under the initial bindings, and `HAVING` holds where it is counted. -/
theorem pushdown_agrees_iff (env : Env) (g : Graph) (tp : PatternTriple) (init : Row)
    (substitute : Bool) :
    (∀ (m : Modifiers) (projs : List ProjectExpr) (groupBy : List Expr) (having : Option Expr)
        (orderBy : List OrderExpr),
      evalQuery env ⟨init, substitute⟩ g (askQuery m tp projs groupBy having orderBy) init =
          askInMemory env ⟨init, substitute⟩ g tp init ↔
        AsksExactly env g tp init) ∧
    ∀ (arg : Option String) (c : String) (aliases : List String) (having : Option Expr),
      evalQuery env ⟨init, substitute⟩ g (countQuery arg c aliases tp having) init =
          countInMemory env ⟨init, substitute⟩ g arg c aliases tp having init ↔
        CountsExactly env ⟨init, substitute⟩ g arg tp having :=
  ⟨fun _ _ _ _ _ => ask_agrees_iff, fun _ _ _ _ => count_agrees_iff ⟨init, substitute⟩⟩

/-- `"a" <p> ?y`: no triple has a literal for its subject. -/
def literalSubject : PatternTriple :=
  ⟨.const (stringLiteral "a"), .term (.const linkP.toTerm), .var "y"⟩

/-- Over the one triple `<a> <p> <b>`, `ASK { "a" <p> ?y }` is true to the store, which is
    asked for any subject, and false in memory. -/
theorem ask_literal_subject_true :
    evalQuery plainEnv plainCtx oneLink
        (askQuery ⟨.ask, false, none, -1, 0, []⟩ literalSubject [] [] none []) ∅ = .ask true ∧
      askInMemory plainEnv plainCtx oneLink literalSubject ∅ = .ask false := by
  constructor
  · rw [evalQuery_askQuery]
    exact congrArg Result.ask (by decide)
  · rw [askInMemory, allSolutions_bgp]
    exact congrArg Result.ask (by decide)

end GoRdf
