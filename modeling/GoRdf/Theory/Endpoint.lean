import GoRdf.Core.Endpoint
import GoRdf.Theory.Paging
import GoRdf.Theory.Scope

/-!
# The row limit of the endpoint

The handler puts its limit into the query as one `LIMIT` more than is allowed,
and then counts what came out. For `SELECT` it counts what it has limited, rows:
if no more than the limit came out, nothing was cut off. There is one way left
for the answer to change. A query that had no `LIMIT` has one now, and a store
that pages may be asked for it.

For `CONSTRUCT` the limit is on solutions and the count is of triples. Solutions
that share their triples, or have none, are cut off without notice.

## Main definitions

* `SameAnswer`: An answer that the handler might give without the option.
* `StoreStandsFor`, `RowsAgree`, `TriplesAgree`: When the handler with the option gives one.

## Theorems

* `evalQuery_select`: The rows of a `SELECT` are a page of its rows without `LIMIT`
  and `OFFSET`, or the store's page.
* `query_answers_iff`: The handler answers with an error or in full, exactly in those
  cases.
-/

namespace GoRdf

open Lib List ParsedQuery
open scoped List

/-! ## The rows of a `SELECT` -/

/-- The rows that `OFFSET` and `LIMIT` are for, as the evaluator finds them. -/
def evaluatedRows (env : Env) (g : Graph) (q : ParsedQuery) : List Row :=
  let solutions := evalPattern env requestCtx g q.pattern
  let solutions :=
    if !q.groupBy.isEmpty || hasAggregates q.toQuery then
      evalAggregation env requestCtx g q.toQuery solutions
    else solutions
  let solutions := solutions.map fun s => projectExprs env requestCtx g q.projectExprs s
  let solutions :=
    if q.orderBy.isEmpty then solutions
    else env.scalars.sortFunc (fun a b => compareRows env requestCtx g q.orderBy a b) solutions
  if q.distinct then uniqueBy (solutionKey q.vars) solutions else solutions

/-- The triple pattern that a store is asked for, if there is something to cut off. -/
def pageable (g : Graph) (q : ParsedQuery) : Option (PatternTerm × PatternTerm × PatternTerm) :=
  if q.orderBy.isEmpty && !q.distinct && q.groupBy.isEmpty && !hasAggregates q.toQuery &&
    q.projectExprs.isEmpty && g.queryable.isSome then extractSimpleBGP q.pattern else none

/-- The triples the store has for the positions. -/
def bareTriples (env : Env) (g : Graph) (tp : PatternTerm × PatternTerm × PatternTerm) :
    List Triple :=
  g.triples (buildStorePattern env.prologue tp.1 tp.2.1 tp.2.2)

/-- The rows that `OFFSET` and `LIMIT` choose from: the store's, if it is asked. -/
def candidates (env : Env) (g : Graph) (q : ParsedQuery) : List Row :=
  if q.limit.isSome || decide (0 < q.offset) then
    ((pageable g q).map fun tp =>
      (bareTriples env g tp).map (pageRow tp.1 tp.2.1 tp.2.2)).getD (evaluatedRows env g q)
  else evaluatedRows env g q

/-- The answer made of a page of rows. -/
def selectAnswer (q : ParsedQuery) (rows : List Row) : Answer :=
  .rows (q.vars.getD (selectStarVars q.pattern rows))
    (rows.map (projectRow (q.vars.getD (selectStarVars q.pattern rows))))

/-- `SELECT *` shows the variables in scope, if the rows carry no others. -/
theorem selectStarVars_eq {p : Pattern} {rows : List Row}
    (h : ∀ row ∈ rows, ∀ v ∈ row, v ∈ p.inScopeVars) :
    selectStarVars p rows = p.inScopeVars.filter fun v => !isInternalVar v := by
  have hnone : (rows.foldl (fun (vs : Finset String) row => vs ∪ row.keys) ∅).filter
      (fun v => v ∉ p.inScopeVars) = ∅ := by
    rw [Finset.filter_eq_empty_iff]
    intro v hv hout
    rw [mem_carried] at hv
    rcases hv with hv | ⟨row, hrow, hv⟩
    · exact Finset.notMem_empty v hv
    · exact hout (h row hrow v hv)
  rw [selectStarVars, hnone, sortStrings, Finset.empty_val, Multiset.sort_zero, append_nil]

/-- The variables of a triple pattern are in scope. -/
theorem mem_inScopeVars_of_position {s p o : PatternTerm} {v : String} (h : .var v ∈ [s, p, o]) :
    v ∈ (Pattern.bgp [⟨s, .term p, o⟩]).inScopeVars := by
  have hvars : v ∈ PatternTriple.vars ⟨s, .term p, o⟩ := by
    simp only [mem_cons, not_mem_nil, or_false] at h
    rw [PatternTriple.vars, mem_append]
    rcases h with rfl | rfl | rfl <;> simp [PatternTerm.vars]
  rw [Pattern.inScopeVars, Pattern.addInScopeVars, mem_foldl_addVars]
  exact .inr ⟨_, mem_singleton_self _, hvars⟩

/-- The rows of a `SELECT`. -/
def selectRows (env : Env) (g : Graph) (q : ParsedQuery) : List Row :=
  (limitPushdown env g q.toQuery).getD (page q.limit q.offset (evaluatedRows env g q))

section

variable {env : Env} {g : Graph} {q : ParsedQuery}

theorem map_page {α β : Type} (f : α → β) (n : Option Nat) (k : Nat) (xs : List α) :
    (page n k xs).map f = page n k (xs.map f) := by
  cases n with
  | none => exact map_drop
  | some m => rw [page, page, map_take, map_drop]

/-- What the evaluator stops at is cut off anyway. -/
theorem page_take_map {α β : Type} (f : α → β) (m k : Nat) (xs : List α) :
    page (some m) k ((xs.take (k + m)).map f) = page (some m) k (xs.map f) := by
  rw [page, page, map_take, drop_take, take_take, Nat.add_sub_cancel_left, Nat.min_self]

/-- A page that is not filled is the same under every higher limit. -/
theorem page_eq_of_length_le {α : Type} {n k : Nat} {m : Option Nat} {xs : List α}
    (hm : ∀ i ∈ m, n < i) (hlen : (page (some (n + 1)) k xs).length ≤ n) :
    page (some (n + 1)) k xs = page m k xs := by
  have hrest : (xs.drop k).length ≤ n := by
    rw [page, length_take] at hlen
    omega
  cases m with
  | none => exact take_of_length_le (hrest.trans (Nat.le_succ n))
  | some i =>
    have hi : n < i := hm i rfl
    rw [page, page, take_of_length_le (by omega), take_of_length_le (by omega)]

/-- The evaluation stops early only if nothing but the projection stands between the
    solutions and the page. -/
theorem pushdownLimit_toQuery (hq : q.form.isAsk = false) :
    pushdownLimit q.toQuery = 0 ∨
      (∃ m, q.limit = some m ∧ pushdownLimit q.toQuery = ((q.offset + m : Nat) : Int)) ∧
        q.orderBy.isEmpty = true ∧ q.distinct = false ∧ q.groupBy.isEmpty = true ∧
        hasAggregates q.toQuery = false := by
  have htype : q.toQuery.modifiers.type = .select := by
    rw [toQuery, hq]
    rfl
  rw [pushdownLimit, htype]
  dsimp only
  split
  · exact .inl rfl
  · rename_i hcond
    simp only [Bool.or_eq_true, decide_eq_true_eq, Bool.not_eq_true', not_or, Bool.not_eq_true,
      not_le, Bool.not_eq_false] at hcond
    obtain ⟨⟨⟨⟨⟨hlimit, horder⟩, hdistinct⟩, hgroup⟩, hagg⟩, -⟩ := hcond
    refine .inr ⟨?_, horder, hdistinct, hgroup, hagg⟩
    cases hm : q.limit with
    | none =>
      rw [toQuery, hm] at hlimit
      exact absurd hlimit (show ¬ (0 : Int) < -1 by decide)
    | some m =>
      refine ⟨m, rfl, ?_⟩
      rw [toQuery, hm]
      exact (Int.natCast_add _ _).symm

theorem evalQuery_select (hq : q.form.isAsk = false) :
    evalQuery env requestCtx g q.toQuery ∅ =
      .select (q.vars.getD (selectStarVars q.pattern (selectRows env g q)))
        ((selectRows env g q).map
          (projectRow (q.vars.getD (selectStarVars q.pattern (selectRows env g q))))) := by
  have hstop := pushdownLimit_toQuery hq
  have hmk : q.toQuery = .mk ⟨.select, q.distinct, q.vars, limitOf q.limit, q.offset,
      q.groupByAliases⟩ q.pattern q.projectExprs q.groupBy q.having q.orderBy := by
    rw [toQuery, hq]
    rfl
  rw [selectRows, evaluatedRows]
  rw [hmk] at hstop ⊢
  rw [evalQuery, evalSelect, if_pos rfl]
  rw [sliceRows_eq_page]
  rcases hstop with hall | ⟨⟨m, hm, hfirst⟩, horder, hdistinct, hgroup, hagg⟩
  · rw [hall, evalPatternUpTo_zero]
  · rw [hfirst, evalPatternUpTo_eq, hagg, horder, hgroup, hdistinct, hm]
    by_cases hzero : ((q.offset + m : Nat) : Int) ≤ 0
    · rw [if_pos hzero]
    · rw [if_neg hzero, Int.toNat_natCast]
      simp only [Bool.not_true, Bool.or_self, Bool.false_eq_true, if_false, if_true, page_take_map]

/-- The store makes the page, if there is something to cut off. -/
theorem limitPushdown_toQuery :
    limitPushdown env g q.toQuery =
      if q.limit.isSome || decide (0 < q.offset) then
        (pageable g q).bind fun tp => g.queryable.map fun qs =>
          (qs.triplesWithLimit (buildStorePattern env.prologue tp.1 tp.2.1 tp.2.2)
            (q.limit.getD 0 : Nat) q.offset).map (pageRow tp.1 tp.2.1 tp.2.2)
      else none := by
  rw [limitPushdown_eq (n := q.limit) (k := q.offset) rfl rfl, pageable]
  cases hparts : q.orderBy.isEmpty && !q.distinct && q.groupBy.isEmpty &&
      !hasAggregates q.toQuery && q.projectExprs.isEmpty with
  | false => exact if_congr Iff.rfl (if_neg (hparts ▸ Bool.false_ne_true)) rfl
  | true =>
    refine if_congr Iff.rfl ((if_pos hparts).trans ?_) rfl
    cases g.queryable with
    | none => cases extractSimpleBGP q.toQuery.pattern <;> rfl
    | some qs => rfl

theorem pageable_eq_some {tp : PatternTerm × PatternTerm × PatternTerm}
    (h : pageable g q = some tp) :
    (((((q.orderBy.isEmpty = true ∧ q.distinct = false) ∧ q.groupBy.isEmpty = true) ∧
      hasAggregates q.toQuery = false) ∧ q.projectExprs.isEmpty = true) ∧
      g.queryable.isSome = true) ∧ extractSimpleBGP q.pattern = some tp := by
  rw [pageable] at h
  split at h
  · rename_i hcond
    simp only [Bool.and_eq_true, Bool.not_eq_true'] at hcond
    exact ⟨hcond, h⟩
  · cases h

/-- The store is asked for the pattern if it is all there is to the query. -/
theorem evaluatedRows_of_pageable (env : Env) {s p o : PatternTerm}
    (h : pageable g q = some (s, p, o)) :
    q.pattern = .bgp [⟨s, .term p, o⟩] ∧
      evaluatedRows env g q = (fittingTriples env.prologue g ⟨s, .term p, o⟩ ∅).map fun t =>
        bindAll (PatternTriple.occurrences ⟨s, .term p, o⟩ t) ∅ := by
  obtain ⟨⟨⟨⟨⟨⟨horder, hdistinct⟩, hgroup⟩, hagg⟩, hproj⟩, -⟩, hsimple⟩ := pageable_eq_some h
  obtain ⟨hpattern, hs, ho⟩ := extractSimpleBGP_eq_some hsimple
  refine ⟨hpattern, ?_⟩
  rw [← @allSolutions_of_simple env requestCtx g ∅ s p o hs ho, allSolutions, if_pos rfl,
    ← hpattern,
    evaluatedRows, horder, hdistinct, hgroup, hagg, isEmpty_iff.mp hproj]
  simp only [Bool.not_true, Bool.or_self, Bool.false_eq_true, if_false, if_true,
    map_projectExprs_nil]

/-- The rows are a page of what there is to choose from. A `LIMIT` of zero is no limit to a
    store. -/
theorem selectRows_page (env : Env) (g : Graph) (q : ParsedQuery) (hlimit : q.limit ≠ some 0) :
    ∃ l, l ~ candidates env g q ∧ (q.orderBy.isEmpty = false → l = candidates env g q) ∧
      selectRows env g q = page q.limit q.offset l := by
  rw [selectRows, limitPushdown_toQuery, candidates]
  by_cases hcut : (q.limit.isSome || decide (0 < q.offset)) = true
  swap
  · rw [if_neg hcut, if_neg hcut]
    exact ⟨_, List.Perm.refl _, fun _ => rfl, rfl⟩
  rw [if_pos hcut, if_pos hcut]
  cases hpage : pageable g q with
  | none => exact ⟨_, List.Perm.refl _, fun _ => rfl, rfl⟩
  | some tp =>
    obtain ⟨⟨⟨⟨⟨⟨hempty, -⟩, -⟩, -⟩, -⟩, hqueryable⟩, -⟩ := pageable_eq_some hpage
    obtain ⟨qs, hqs⟩ := Option.isSome_iff_exists.mp hqueryable
    obtain ⟨l, hperm, hstore⟩ := triplesWithLimit_eq_page (k := q.offset) qs
      (buildStorePattern env.prologue tp.1 tp.2.1 tp.2.2) hlimit
    refine ⟨l.map (pageRow tp.1 tp.2.1 tp.2.2), hperm.map _, fun horder => ?_, ?_⟩
    · rw [hempty] at horder
      cases horder
    · rw [Option.bind_some, hqs, Option.map_some, Option.getD_some, hstore, map_page]

/-- Rows that carry what is in scope, and that show the same, make the same answer. -/
theorem selectAnswer_congr {l l' : List Row} (hl : ∀ row ∈ l, ∀ v ∈ row, v ∈ q.pattern.inScopeVars)
    (hl' : ∀ row ∈ l', ∀ v ∈ row, v ∈ q.pattern.inScopeVars)
    (h : l.map (visible q.vars) = l'.map (visible q.vars)) :
    selectAnswer q l = selectAnswer q l' := by
  rw [selectAnswer, selectAnswer, map_projectRow_eq_visible, map_projectRow_eq_visible, h,
    selectStarVars_eq hl, selectStarVars_eq hl']

theorem map_visible_of_selectAnswer_eq {l l' : List Row}
    (h : selectAnswer q l = selectAnswer q l') :
    l.map (visible q.vars) = l'.map (visible q.vars) := by
  rw [selectAnswer, selectAnswer, map_projectRow_eq_visible, map_projectRow_eq_visible] at h
  exact (Answer.rows.inj h).2

end

/-! ## The bound on the query -/

section

variable {env : Env} {g : Graph} {q : ParsedQuery} {n : Nat}

/-- The query is left alone, or it gets one row more than allowed. -/
theorem bounded_cases (hn : 0 < n) (hq : q.form.isAsk = false) :
    (∃ m, q.limit = some m ∧ m ≤ n) ∧ q.bounded n = q ∨
      (∀ m ∈ q.limit, n < m) ∧ q.bounded n = { q with limit := some (n + 1) } := by
  by_cases hover : ∀ m ∈ q.limit, n < m
  · exact .inr ⟨hover, if_pos ⟨hn, hq, hover⟩⟩
  · refine .inl ⟨?_, if_neg fun h => hover h.2.2⟩
    push Not at hover
    exact hover

theorem bounded_zero : q.bounded 0 = q :=
  if_neg fun h => absurd h.1 (Nat.lt_irrefl 0)

theorem evalAggregation_limit (m : Option Nat) (rows : List Row) :
    evalAggregation env requestCtx g { q with limit := m }.toQuery rows =
      evalAggregation env requestCtx g q.toQuery rows := by
  rw [toQuery, toQuery, evalAggregation, evalAggregation, aggregateGroups, aggregateGroups]
  rfl

theorem evaluatedRows_limit (m : Option Nat) :
    evaluatedRows env g { q with limit := m } = evaluatedRows env g q := by
  rw [evaluatedRows]
  simp only [evalAggregation_limit]
  rfl

/-- Under a limit a store is asked if it can be. -/
theorem candidates_some (m : Nat) :
    candidates env g { q with limit := some m } =
      ((pageable g q).map fun tp =>
        (bareTriples env g tp).map (pageRow tp.1 tp.2.1 tp.2.2)).getD (evaluatedRows env g q) := by
  have hpage : pageable g { q with limit := some m } = pageable g q := rfl
  rw [candidates, hpage, evaluatedRows_limit]
  exact if_pos (Bool.true_or _)

/-- A bound changes what there is to choose from only if the query had nothing to cut off,
    and the store is asked because of it. -/
theorem candidates_limit (m : Nat)
    (h : pageable g q = none ∨ (q.limit.isSome || decide (0 < q.offset)) = true) :
    candidates env g { q with limit := some m } = candidates env g q := by
  rw [candidates_some, candidates]
  rcases h with hnone | hcut
  · rw [hnone, Option.map_none, Option.getD_none, ite_self]
  · rw [if_pos hcut]

end

/-! ## Answers to a `SELECT` -/

/-- The handler without the option. -/
def Handler.unlimited (h : Handler) : Handler :=
  { h with maxRows := 0 }

/-- The error for too many rows. -/
def Refusal (h : Handler) (a : Answer) : Prop :=
  ∃ what, a = tooManyRows h.maxRows what

/-- What the handler without the option answers, or what it might have answered, as no
    order says which rows `OFFSET` and `LIMIT` choose. -/
def SameAnswer (h : Handler) (q : ParsedQuery) (a : Answer) : Prop :=
  a = h.unlimited.query q ∨
    q.form = .select ∧ q.orderBy.isEmpty = true ∧
      ∃ l, l ~ candidates h.env h.default q ∧ a = selectAnswer q (page q.limit q.offset l)

/-- What the store has for the positions stands for the query: all of it fits the pattern,
    and the last term that a variable meets makes the same rows as the first. -/
def StoreStandsFor (h : Handler) (q : ParsedQuery) (s p o : PatternTerm) : Prop :=
  (∀ t ∈ bareTriples h.env h.default (s, p, o),
    PatternTriple.Fits h.env.prologue ∅ ⟨s, .term p, o⟩ t) ∧
  (bareTriples h.env h.default (s, p, o)).map (fun t => visible q.vars (pageRow s p o t)) ~
    (bareTriples h.env h.default (s, p, o)).map fun t =>
      visible q.vars (bindAll (PatternTriple.occurrences ⟨s, .term p, o⟩ t) ∅)

/-- If the store is asked only because of the limit, it has more triples than allowed, or
    they stand for the query. -/
def RowsAgree (h : Handler) (q : ParsedQuery) : Prop :=
  ∀ s p o, pageable h.default q = some (s, p, o) → q.limit = none → q.offset = 0 →
    h.maxRows < (bareTriples h.env h.default (s, p, o)).length ∨ StoreStandsFor h q s p o

section

variable {h : Handler} {q : ParsedQuery}

theorem query_select (hform : q.form = .select) :
    h.query q =
      if 0 < h.maxRows ∧
        h.maxRows < (selectRows h.env h.default (q.bounded h.maxRows)).length then
        tooManyRows h.maxRows "solutions"
      else selectAnswer q (selectRows h.env h.default (q.bounded h.maxRows)) := by
  have hfields : (q.bounded h.maxRows).form = .select ∧ (q.bounded h.maxRows).vars = q.vars ∧
      (q.bounded h.maxRows).pattern = q.pattern := by
    rw [bounded]
    split <;> exact ⟨hform, rfl, rfl⟩
  have hask : (q.bounded h.maxRows).form.isAsk = false := by
    rw [hfields.1]
    rfl
  rw [Handler.query]
  rw [evalQuery_select hask, hfields.1, hfields.2.1, hfields.2.2]
  dsimp only
  rw [length_map]
  rfl

theorem unlimited_query_select (hform : q.form = .select) :
    h.unlimited.query q = selectAnswer q (selectRows h.env h.default q) := by
  rw [query_select hform]
  exact congrArg (fun q' => selectAnswer q (selectRows h.env h.default q')) bounded_zero

/-- If the store is not asked because of the limit, the handler refuses or answers as it
    would without. -/
theorem select_answers (hn : 0 < h.maxRows) (hform : q.form = .select)
    (hasked : pageable h.default q = none ∨ (q.limit.isSome || decide (0 < q.offset)) = true) :
    Refusal h (h.query q) ∨ SameAnswer h q (h.query q) := by
  have hask : q.form.isAsk = false := by rw [hform]; rfl
  rw [query_select hform]
  by_cases hlen : 0 < h.maxRows ∧
      h.maxRows < (selectRows h.env h.default (q.bounded h.maxRows)).length
  · exact .inl ⟨"solutions", if_pos hlen⟩
  rw [if_neg hlen]
  refine .inr ?_
  rcases bounded_cases hn hask with ⟨-, hbound⟩ | ⟨hover, hbound⟩
  · rw [hbound]
    exact .inl (unlimited_query_select hform).symm
  · have hzero : q.limit ≠ some 0 := fun hlimit => absurd (hover 0 hlimit) (Nat.not_lt_zero _)
    obtain ⟨l, hperm, hordered, hrows⟩ := selectRows_page h.env h.default
      { q with limit := some (h.maxRows + 1) } fun heq => Nat.succ_ne_zero _ (Option.some.inj heq)
    rw [candidates_limit _ hasked] at hperm hordered
    rw [hbound, hrows] at hlen
    have hsame := page_eq_of_length_le hover (not_lt.mp fun hlt => hlen ⟨hn, hlt⟩)
    rw [hbound, hrows, hsame]
    cases horder : q.orderBy.isEmpty with
    | true => exact .inr ⟨hform, horder, l, hperm, rfl⟩
    | false =>
      obtain ⟨l', -, hordered', hrows'⟩ := selectRows_page h.env h.default q hzero
      rw [hordered horder]
      rw [hordered' horder] at hrows'
      exact .inl (hrows' ▸ unlimited_query_select hform).symm

section

variable {s p o : PatternTerm}

theorem mem_inScopeVars_of_pageRow (hpattern : q.pattern = .bgp [⟨s, .term p, o⟩]) {t : Triple}
    {v : String} (hv : v ∈ pageRow s p o t) : v ∈ q.pattern.inScopeVars := by
  rw [hpattern]
  by_contra hout
  have hposition : .var v ∉ [s, p, o] := fun h => hout (mem_inScopeVars_of_position h)
  exact Finmap.lookup_eq_none.mp (lookup_pageRow_of_not_mem hposition) hv

theorem mem_inScopeVars_of_bindAll (hpattern : q.pattern = .bgp [⟨s, .term p, o⟩]) {t : Triple}
    {v : String} (hv : v ∈ bindAll (PatternTriple.occurrences ⟨s, .term p, o⟩ t) ∅) :
    v ∈ q.pattern.inScopeVars := by
  rw [hpattern]
  refine mem_inScopeVars_of_position ((var_mem_iff_met (t := t)).mpr ?_)
  obtain ⟨x, hx⟩ := Finmap.mem_iff.mp hv
  rw [lookup_bindAll, Finmap.lookup_empty] at hx
  exact ⟨x, firstMet_mem hx⟩

/-- The store's rows answer the query in some order exactly if what it has stands for the
    query. -/
theorem store_answers_iff (hpage : pageable h.default q = some (s, p, o)) {l : List Row}
    (hl : l ~ (bareTriples h.env h.default (s, p, o)).map (pageRow s p o)) :
    (∃ l', l' ~ evaluatedRows h.env h.default q ∧ selectAnswer q l = selectAnswer q l') ↔
      StoreStandsFor h q s p o := by
  obtain ⟨hpattern, hrows⟩ := evaluatedRows_of_pageable h.env hpage
  have hshown : l.map (visible q.vars) ~
      (bareTriples h.env h.default (s, p, o)).map fun t => visible q.vars (pageRow s p o t) := by
    have hmap := hl.map (visible q.vars)
    rw [map_map] at hmap
    exact hmap
  have hfitting : (∀ t ∈ bareTriples h.env h.default (s, p, o),
      PatternTriple.Fits h.env.prologue ∅ ⟨s, .term p, o⟩ t) →
      (evaluatedRows h.env h.default q).map (visible q.vars) ~
        (bareTriples h.env h.default (s, p, o)).map fun t =>
          visible q.vars (bindAll (PatternTriple.occurrences ⟨s, .term p, o⟩ t) ∅) := by
    intro hfits
    rw [hrows, map_map]
    exact (fittingTriples_perm_bare hfits).map _
  constructor
  · rintro ⟨l', hl', hsame⟩
    have heq := map_visible_of_selectAnswer_eq hsame
    have hcount := congrArg List.length heq
    rw [length_map, length_map, hl.length_eq, hl'.length_eq, hrows, length_map,
      length_map] at hcount
    -- As many rows as triples: none of the triples was left out by the evaluator.
    have hfits := length_fittingTriples_eq_iff.mp hcount
    refine ⟨hfits, hshown.symm.trans ?_⟩
    rw [heq]
    exact (hl'.map _).trans (hfitting hfits)
  · rintro ⟨hfits, hsame⟩
    obtain ⟨l', hl', hmap⟩ := exists_perm_map (hshown.trans (hsame.trans (hfitting hfits).symm))
    refine ⟨l', hl', selectAnswer_congr ?_ ?_ hmap.symm⟩
    · intro row hrow v hv
      obtain ⟨t, -, rfl⟩ := mem_map.mp (hl.mem_iff.mp hrow)
      exact mem_inScopeVars_of_pageRow hpattern hv
    · intro row hrow v hv
      rw [hrows] at hl'
      obtain ⟨t, -, rfl⟩ := mem_map.mp (hl'.mem_iff.mp hrow)
      exact mem_inScopeVars_of_bindAll hpattern hv

/-- If it is asked because of the limit, the condition is on its triples. -/
theorem switched_answers_iff (hn : 0 < h.maxRows) (hform : q.form = .select)
    (hpage : pageable h.default q = some (s, p, o)) (hlimit : q.limit = none)
    (hoffset : q.offset = 0) :
    (Refusal h (h.query q) ∨ SameAnswer h q (h.query q)) ↔ RowsAgree h q := by
  have hbound : q.bounded h.maxRows = { q with limit := some (h.maxRows + 1) } := by
    refine if_pos ⟨hn, ?_, fun m hm => ?_⟩
    · rw [hform]
      rfl
    · rw [hlimit] at hm
      cases hm
  obtain ⟨l, hl, -, hrows⟩ := selectRows_page h.env h.default
    { q with limit := some (h.maxRows + 1) } fun heq => Nat.succ_ne_zero _ (Option.some.inj heq)
  rw [candidates_some, hpage, Option.map_some, Option.getD_some] at hl
  -- The store is asked for one row more than the limit allows, to see whether there are more.
  have hcut : selectRows h.env h.default (q.bounded h.maxRows) = l.take (h.maxRows + 1) := by
    rw [hbound, hrows]
    exact congrArg (fun k => (l.drop k).take (h.maxRows + 1)) hoffset
  have hlength : l.length = (bareTriples h.env h.default (s, p, o)).length := by
    rw [hl.length_eq, length_map]
  have hagree : RowsAgree h q ↔ h.maxRows < l.length ∨ StoreStandsFor h q s p o := by
    rw [hlength]
    constructor
    · exact fun hrows => hrows s p o hpage hlimit hoffset
    · intro hcase s' p' o' hpage' _ _
      rw [hpage] at hpage'
      obtain ⟨rfl, rfl, rfl⟩ := hpage'
      exact hcase
  have hwhole : candidates h.env h.default q = evaluatedRows h.env h.default q := by
    rw [candidates, hlimit, hoffset]
    rfl
  rw [query_select hform, hcut, hagree, length_take]
  -- With more rows than the limit the request is refused, so there is no answer to compare.
  by_cases hmore : h.maxRows < l.length
  · rw [if_pos ⟨hn, by omega⟩]
    exact ⟨fun _ => .inl hmore, fun _ => .inl ⟨_, rfl⟩⟩
  · have htake : l.take (h.maxRows + 1) = l := take_of_length_le (by omega)
    rw [if_neg (by omega), htake, or_iff_right hmore, ← store_answers_iff hpage hl, SameAnswer,
      unlimited_query_select hform, hwhole, hlimit, hoffset]
    have hself : selectRows h.env h.default q = evaluatedRows h.env h.default q := by
      rw [selectRows, limitPushdown_toQuery, hlimit, hoffset]
      rfl
    constructor
    · rintro (⟨what, hrefused⟩ | heq | ⟨-, -, l', hl', heq⟩)
      · exact Answer.noConfusion hrefused
      · exact ⟨_, List.Perm.refl _, hself ▸ heq⟩
      · exact ⟨l', hl', heq⟩
    · rintro ⟨l', hl', heq⟩
      exact .inr (.inr ⟨hform, (pageable_eq_some hpage).1.1.1.1.1.1, l', hl', heq⟩)

/-- A `SELECT` is refused or answered in full exactly if the store's page, where the limit
    brings it in, agrees with the evaluator's rows. -/
theorem select_answers_iff (hn : 0 < h.maxRows) (hform : q.form = .select) :
    (Refusal h (h.query q) ∨ SameAnswer h q (h.query q)) ↔ RowsAgree h q := by
  by_cases hasked : pageable h.default q = none ∨ (q.limit.isSome || decide (0 < q.offset)) = true
  · refine ⟨fun _ s p o hpage hlimit hoffset => ?_, fun _ => select_answers hn hform hasked⟩
    rw [hpage, hlimit, hoffset] at hasked
    exact hasked.elim (nofun) nofun
  · simp only [not_or, Bool.or_eq_true, Bool.not_eq_true, Option.isSome_eq_false_iff,
      Option.isNone_iff_eq_none, decide_eq_true_eq, Nat.pos_iff_ne_zero, not_not] at hasked
    obtain ⟨⟨s, p, o⟩, hpage⟩ := Option.ne_none_iff_exists'.mp hasked.1
    exact switched_answers_iff hn hform hpage hasked.2.1 hasked.2.2

end

end

/-! ## Answers to a `CONSTRUCT` -/

/-- The solutions of a `CONSTRUCT` in their order, before `OFFSET` and `LIMIT`. -/
def orderedSolutions (env : Env) (g : Graph) (q : ParsedQuery) : List Row :=
  if q.orderBy.isEmpty then evalPattern env requestCtx g q.pattern
  else env.scalars.sortFunc (fun a b => compareRows env requestCtx g q.orderBy a b)
    (evalPattern env requestCtx g q.pattern)

/-- The solutions that fill in the template, each with its scope. -/
def chosenSolutions (h : Handler) (q : ParsedQuery) : List (Row × Scope) :=
  withScopes h.fresh (page q.limit q.offset (orderedSolutions h.env h.default q))

/-- The query has a `LIMIT` that is allowed, or the solutions that are looked at have more
    triples than allowed, or those that are cut off have no others. -/
def TriplesAgree (h : Handler) (q : ParsedQuery) (template : List PatternTriple) : Prop :=
  let triples := evalConstruct h.env.prologue (constructTemplate q template)
    ((chosenSolutions h q).take (h.maxRows + 1))
  (∃ m, q.limit = some m ∧ m ≤ h.maxRows) ∨ h.maxRows < triples.length ∨
    ∀ s ∈ (chosenSolutions h q).drop (h.maxRows + 1),
      ∀ t ∈ solutionTriples h.env.prologue (constructTemplate q template) s, t ∈ triples

section

variable {pl : Prologue} {template : List PatternTriple}

/-- Nothing changes exactly if the triples are there already. -/
theorem foldl_addTriple_eq_iff {ts xs : List Triple} :
    xs.foldl addTriple ts = ts ↔ ∀ t ∈ xs, t ∈ ts := by
  constructor
  · intro heq t ht
    rw [← heq]
    exact Lib.mem_foldl_addNew.mpr (.inr ht)
  · intro hsub
    induction xs with
    | nil => rfl
    | cons x xs ih =>
      rw [foldl_cons, addTriple, if_pos (hsub x mem_cons_self)]
      exact ih fun t ht => hsub t (mem_cons_of_mem x ht)

/-- More solutions leave the graph as it is exactly if they have no other triples. -/
theorem evalConstruct_append_eq_iff {xs ys : List (Row × Scope)} :
    evalConstruct pl template (xs ++ ys) = evalConstruct pl template xs ↔
      ∀ s ∈ ys, ∀ t ∈ solutionTriples pl template s, t ∈ evalConstruct pl template xs := by
  rw [evalConstruct, evalConstruct, foldl_append, ← foldl_flatMap, ← foldl_flatMap,
    foldl_addTriple_eq_iff]
  constructor
  · exact fun h s hs t ht => h t (mem_flatMap.mpr ⟨s, hs, ht⟩)
  · intro h t ht
    obtain ⟨s, hs, ht⟩ := mem_flatMap.mp ht
    exact h s hs t ht

end

section

variable {h : Handler} {q : ParsedQuery} {template : List PatternTriple}

/-- The evaluation stops early only where solutions would be cut off. -/
theorem evalConstructQuery_eq (hq : q.form.isAsk = false) :
    evalConstructQuery h.env requestCtx h.default h.fresh q template =
      evalConstruct h.env.prologue (constructTemplate q template) (chosenSolutions h q) := by
  have hslice : ∀ rows, sliceRows q.toQuery.modifiers.offset q.toQuery.modifiers.limit rows =
      page q.limit q.offset rows := fun rows => sliceRows_eq_page q.limit q.offset rows
  rw [evalConstructQuery, chosenSolutions, orderedSolutions, hslice]
  rcases pushdownLimit_toQuery hq with hall | ⟨⟨m, hm, hfirst⟩, horder, -⟩
  · rw [hall, evalPatternUpTo_zero]
  · rw [hfirst, horder, evalPatternUpTo_eq, if_pos rfl, if_pos rfl]
    by_cases hzero : ((q.offset + m : Nat) : Int) ≤ 0
    · rw [if_pos hzero]
    · have hcut := page_take_map id m q.offset (evalPattern h.env requestCtx h.default q.pattern)
      rw [map_id, map_id] at hcut
      rw [if_neg hzero, Int.toNat_natCast, hm, hcut]

theorem query_construct (hform : q.form = .construct template) :
    h.query q =
      if 0 < h.maxRows ∧ h.maxRows < (evalConstruct h.env.prologue (constructTemplate q template)
        (chosenSolutions h (q.bounded h.maxRows))).length then tooManyRows h.maxRows "triples"
      else .graph (evalConstruct h.env.prologue (constructTemplate q template)
        (chosenSolutions h (q.bounded h.maxRows))) := by
  have hfields : (q.bounded h.maxRows).form = .construct template ∧
      constructTemplate (q.bounded h.maxRows) template = constructTemplate q template := by
    rw [bounded]
    split <;> exact ⟨hform, rfl⟩
  have hask : (q.bounded h.maxRows).form.isAsk = false := by
    rw [hfields.1]
    rfl
  rw [Handler.query]
  rw [hfields.1]
  dsimp only
  rw [evalConstructQuery_eq hask, hfields.2]

theorem unlimited_query_construct (hform : q.form = .construct template) :
    h.unlimited.query q =
      .graph (evalConstruct h.env.prologue (constructTemplate q template)
        (chosenSolutions h q)) := by
  rw [query_construct hform]
  exact congrArg (fun q' => Answer.graph (evalConstruct h.env.prologue
    (constructTemplate q template) (chosenSolutions h q'))) bounded_zero

theorem withScopes_take (fresh : Nat → Scope) (rows : List Row) (n : Nat) :
    withScopes fresh (rows.take n) = (withScopes fresh rows).take n := by
  refine ext_getElem? fun i => ?_
  simp only [withScopes, getElem?_map, getElem?_zipIdx, getElem?_take]
  split <;> rfl

/-- Under the bound the first solutions are left. -/
theorem chosenSolutions_bounded {n : Nat} (hover : ∀ m ∈ q.limit, n < m) :
    chosenSolutions h { q with limit := some (n + 1) } = (chosenSolutions h q).take (n + 1) := by
  have hpage : ∀ rows : List Row,
      page (some (n + 1)) q.offset rows = (page q.limit q.offset rows).take (n + 1) := by
    intro rows
    cases hlimit : q.limit with
    | none => rfl
    | some m =>
      have hm : n < m := hover m hlimit
      rw [page, page, take_take, Nat.min_eq_left hm]
  rw [chosenSolutions, chosenSolutions, ← withScopes_take, ← hpage]
  rfl

/-- A `CONSTRUCT` is refused or answered in full exactly if the solutions that are cut off
    make no difference. -/
theorem construct_answers_iff (hn : 0 < h.maxRows) (hform : q.form = .construct template) :
    (Refusal h (h.query q) ∨ SameAnswer h q (h.query q)) ↔ TriplesAgree h q template := by
  have hask : q.form.isAsk = false := by rw [hform]; rfl
  have hsame : ∀ a, SameAnswer h q a ↔ a = h.unlimited.query q := by
    intro a
    refine or_iff_left fun hselect => ?_
    rw [hform] at hselect
    exact QueryForm.noConfusion hselect.1
  rw [hsame, unlimited_query_construct hform, query_construct hform, TriplesAgree]
  rcases bounded_cases hn hask with ⟨hallowed, hbound⟩ | ⟨hover, hbound⟩
  · rw [hbound]
    refine ⟨fun _ => .inl hallowed, fun _ => ?_⟩
    split
    · exact .inl ⟨_, rfl⟩
    · exact .inr rfl
  · have hlimit : ¬ ∃ m, q.limit = some m ∧ m ≤ h.maxRows := by
      rintro ⟨m, hm, hle⟩
      exact absurd (hover m hm) (not_lt.mpr hle)
    -- No limit within the bound, so one solution more than the bound is asked for.
    rw [hbound, chosenSolutions_bounded hover, or_iff_right hlimit]
    split
    · rename_i hmore
      exact ⟨fun _ => .inl hmore.2, fun _ => .inl ⟨_, rfl⟩⟩
    · rename_i hfew
      have hfew : ¬ h.maxRows < _ := fun hlt => hfew ⟨hn, hlt⟩
      rw [or_iff_right hfew, ← evalConstruct_append_eq_iff, take_append_drop]
      constructor
      · rintro (⟨what, hrefused⟩ | heq)
        · exact Answer.noConfusion hrefused
        · exact (Answer.graph.inj heq).symm
      · exact fun heq => .inr (congrArg Answer.graph heq.symm)

end

/-! ## The answer -/

/-- What the row limit must not cut off. -/
def Uncut (h : Handler) (q : ParsedQuery) : Prop :=
  match q.form with
  | .select => RowsAgree h q
  | .ask => True
  | .construct template => TriplesAgree h q template

/-- The handler answers a query with the error or in full exactly if the limit cuts nothing
    off that counts. -/
theorem query_answers_iff (h : Handler) (q : ParsedQuery) (hn : 0 < h.maxRows) :
    (Refusal h (h.query q) ∨ SameAnswer h q (h.query q)) ↔ Uncut h q := by
  rw [Uncut]
  cases hform : q.form with
  | select => exact select_answers_iff hn hform
  | construct template => exact construct_answers_iff hn hform
  | ask =>
    have hbound : ∀ n, q.bounded n = q := by
      intro n
      refine if_neg fun hcond => ?_
      rw [hform] at hcond
      exact absurd hcond.2.1 (by decide)
    have hanswer : ∃ b, evalQuery h.env requestCtx h.default q.toQuery ∅ = .ask b := by
      rw [toQuery, hform, evalQuery]
      exact ⟨_, rfl⟩
    obtain ⟨b, hb⟩ := hanswer
    have hquery : ∀ n, Handler.query { h with maxRows := n } q = .boolean b := by
      intro n
      rw [Handler.query]
      rw [hbound, hform]
      rw [hb]
    exact iff_of_true (.inr (.inl ((hquery h.maxRows).trans (hquery 0).symm))) trivial

/-- Two links to `<b>`, and one to `<a>`. -/
def threeLinks : List Triple :=
  [linkAB, ⟨.uri nodeB, linkP, nodeB.toTerm⟩, ⟨.uri ⟨"http://e/c", by decide⟩, linkP, nodeA.toTerm⟩]

theorem freshLabel_valid : "b".toList.all iriChar = true := by decide

theorem freshLabel_ne : "b" ≠ "" := by decide

/-- A handler that allows one row. The templates below have no blank nodes. -/
def oneRowHandler : Handler where
  env := plainEnv
  default := .ofList threeLinks (by decide)
  fresh _ _ := ⟨"b", freshLabel_valid, freshLabel_ne⟩
  maxRows := 1

/-- A query for `?x <p> ?y`, with `ORDER BY ?x`. -/
def linksQuery (form : QueryForm) : ParsedQuery where
  form := form
  distinct := false
  vars := none
  pattern := .bgp [stepXY]
  projectExprs := []
  groupBy := []
  groupByAliases := []
  having := none
  orderBy := [.mk (.var "x") false]
  limit := none
  offset := 0

/-- `SELECT * { ?x <p> ?y } ORDER BY ?x` is refused or answered in full. -/
theorem query_answers_links :
    Refusal oneRowHandler (oneRowHandler.query (linksQuery .select)) ∨
      SameAnswer oneRowHandler (linksQuery .select) (oneRowHandler.query (linksQuery .select)) :=
  (query_answers_iff oneRowHandler (linksQuery .select) (by decide)).mpr
    fun s p o hpage _ _ => by cases hpage

/-- `<a> <p> ?y`. -/
def linkTemplate : List PatternTriple :=
  [⟨.const nodeA.toTerm, .term (.const linkP.toTerm), .var "y"⟩]

/-- `CONSTRUCT { <a> <p> ?y } WHERE { ?x <p> ?y } ORDER BY ?x` is answered with one of its
    two triples: the two solutions that are looked at share it. -/
theorem construct_truncated :
    ¬ ∀ (h : Handler) (q : ParsedQuery), 0 < h.maxRows →
      Refusal h (h.query q) ∨ SameAnswer h q (h.query q) := by
  intro hall
  have hagree := (construct_answers_iff (by decide) rfl).mp
    (hall oneRowHandler (linksQuery (.construct linkTemplate)) (by decide))
  -- The solutions come in their order, so that sorting leaves them as they are.
  have hsolutions : chosenSolutions oneRowHandler (linksQuery (.construct linkTemplate)) =
      withScopes oneRowHandler.fresh
        (threeLinks.map fun t => bindAll (stepXY.occurrences t) ∅) := by
    exact congrArg (withScopes oneRowHandler.fresh)
      (@allSolutions_of_simple plainEnv requestCtx oneRowHandler.default ∅ _ _ _ rfl rfl)
  have htriples : evalConstruct plainPrologue linkTemplate
      ((chosenSolutions oneRowHandler (linksQuery (.construct linkTemplate))).take 2) =
        [linkAB] := by
    rw [hsolutions]
    decide
  rcases hagree with ⟨m, hlimit, -⟩ | hmore | hrest
  · cases hlimit
  · have hone := congrArg List.length htriples
    exact absurd (hone ▸ hmore) (by decide)
  · rw [hsolutions] at hrest
    have hmem := hrest _ mem_cons_self linkAA (by decide)
    rw [← hsolutions] at hmem
    exact absurd (htriples ▸ hmem) (by decide)

end GoRdf
