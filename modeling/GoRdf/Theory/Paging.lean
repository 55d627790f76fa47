import GoRdf.Theory.Pushdown
import GoRdf.Theory.StoreGraph

/-!
# `LIMIT` and `OFFSET`

Three mechanisms cut the solutions of a query: `evalPatternUpTo` stops early,
slices are taken at the end, and a queryable store returns a page of its own.
The first two give a page of the solutions. The third does so if the bare
triple pattern it is asked for stands for the query, and if the limit is not
zero, which a store reads as no limit.

## Main definitions

* `PagesExactly`: The store's page is a page of the query's solutions, or there is
  none.

## Theorems

* `evalQuery_page`: The rows of a page are rows of the whole query, as many as
  `LIMIT` and `OFFSET` leave.
-/

namespace GoRdf

open Lib List Option Finmap
open scoped List

/-- A variable that stands at several positions meets one term. -/
def OneTermPerVar (tp : PatternTriple) (t : Triple) : Prop :=
  ∀ v x y, (.var v, x) ∈ tp.occurrences t → (.var v, y) ∈ tp.occurrences t → x = y

/-- What the store is asked for stands for the query, whenever it is asked: nothing
    is left after the offset, or the limit is not zero, every triple of the bare
    pattern has the initial values at the pattern's variables and one term for each
    variable, and every initial binding that is shown is of such a variable. -/
def PagesExactly (env : Env) (g : Graph) (p : Pattern) (init : Row) (vars : Option (List String))
    (n : Option Nat) (k : Nat) : Prop :=
  ∀ s pr o, extractSimpleBGP p = some (s, pr, o) → g.queryable.isSome = true →
    (n.isSome || decide (0 < k)) = true →
    (g.triples (buildStorePattern env.prologue s pr o)).length ≤ k ∨
    n ≠ some 0 ∧
      (∀ t ∈ g.triples (buildStorePattern env.prologue s pr o),
        PatternTriple.Fits env.prologue init ⟨s, .term pr, o⟩ t ∧
          OneTermPerVar ⟨s, .term pr, o⟩ t) ∧
      ∀ v ∈ init, Shows vars v → .var v ∈ [s, pr, o]

section

variable {env : Env} {ctx : EvalCtx} {g : Graph} {vars : Option (List String)}
  {aliases : List String} {p : Pattern} {having : Option Expr} {init : Row} {n : Option Nat}
  {k : Nat} {s pr o : PatternTerm}

/-- The store makes the page of a single triple pattern, if there is something to cut
    off. -/
theorem limitPushdown_pageQuery :
    limitPushdown env g (pageQuery vars aliases p having (limitOf n) k) =
      if n.isSome || decide (0 < k) then
        (extractSimpleBGP p).bind fun tp => g.queryable.map fun qs =>
          (qs.triplesWithLimit (buildStorePattern env.prologue tp.1 tp.2.1 tp.2.2)
            (n.getD 0 : Nat) k).map (pageRow tp.1 tp.2.1 tp.2.2)
      else none :=
  (limitPushdown_eq rfl rfl).trans (if_congr Iff.rfl (if_pos rfl) rfl)

/-- A position of the triple that the page's row takes its value from. -/
theorem lookup_pageRow {t : Triple} {v : String} :
    (pageRow s pr o t).lookup v =
      if o = .var v then some t.object
      else if pr = .var v then some t.predicate.toTerm
      else if s = .var v then some (.subject t.subject) else none := by
  unfold pageRow
  extract_lets set
  have hset : ∀ pt x row, (set pt x row).lookup v =
      if pt = .var v then some x else row.lookup v := by
    intro pt x row
    cases pt with
    | var w =>
      by_cases hw : v = w
      · rw [hw, if_pos rfl]
        exact lookup_insert row
      · rw [if_neg fun h => hw (PatternTerm.var.inj h).symm]
        exact lookup_insert_of_ne row hw
    | const _ | name _ _ | triple _ _ _ => rfl
  refine (hset o _ _).trans ?_
  refine if_congr Iff.rfl rfl ((hset pr _ _).trans ?_)
  exact if_congr Iff.rfl rfl (hset s _ _)

theorem mem_occurrences_iff {t : Triple} {e : PatternTerm × Term} :
    e ∈ PatternTriple.occurrences ⟨s, .term pr, o⟩ t ↔
      e = (s, .subject t.subject) ∨ e = (pr, t.predicate.toTerm) ∨ e = (o, t.object) := by
  simp only [PatternTriple.occurrences, mem_cons, not_mem_nil, or_false]

/-- The variables of the pattern are those that meet a term. -/
theorem var_mem_iff_met {t : Triple} {v : String} :
    .var v ∈ [s, pr, o] ↔ ∃ x, (.var v, x) ∈ PatternTriple.occurrences ⟨s, .term pr, o⟩ t := by
  simp only [mem_occurrences_iff, Prod.mk.injEq, mem_cons, not_mem_nil, or_false]
  constructor
  · rintro (h | h | h)
    · exact ⟨_, .inl ⟨h, rfl⟩⟩
    · exact ⟨_, .inr (.inl ⟨h, rfl⟩)⟩
    · exact ⟨_, .inr (.inr ⟨h, rfl⟩)⟩
  · rintro ⟨x, h⟩
    exact h.imp And.left (Or.imp And.left And.left)

/-- A variable of the page's row has the one term it meets. -/
theorem lookup_pageRow_of_met {t : Triple} (hone : OneTermPerVar ⟨s, .term pr, o⟩ t) {v : String}
    {x : Term} (hx : (.var v, x) ∈ PatternTriple.occurrences ⟨s, .term pr, o⟩ t) :
    (pageRow s pr o t).lookup v = some x := by
  have hmet : ∀ y, (.var v, y) ∈ PatternTriple.occurrences ⟨s, .term pr, o⟩ t → some y = some x :=
    fun y hy => congrArg some (hone v y x hy hx)
  simp only [mem_occurrences_iff, Prod.mk.injEq] at hmet hx
  rw [lookup_pageRow]
  split
  · rename_i ho
    exact hmet _ (.inr (.inr ⟨ho.symm, rfl⟩))
  · split
    · rename_i hp
      exact hmet _ (.inr (.inl ⟨hp.symm, rfl⟩))
    · rename_i ho hp
      have hs := hx.resolve_right fun h => h.elim (fun h => hp h.1.symm) fun h => ho h.1.symm
      rw [if_pos hs.1.symm]
      exact hmet _ (.inl ⟨hs.1, rfl⟩)

theorem lookup_pageRow_of_not_mem {t : Triple} {v : String} (h : .var v ∉ [s, pr, o]) :
    (pageRow s pr o t).lookup v = none := by
  simp only [mem_cons, not_mem_nil, or_false, not_or] at h
  rw [lookup_pageRow, if_neg fun heq => h.2.2 heq.symm, if_neg fun heq => h.2.1 heq.symm,
    if_neg fun heq => h.1 heq.symm]

/-- What a projection shows of the page's row and of the evaluator's. -/
theorem visible_pageRow {t : Triple}
    (hfits : PatternTriple.Fits env.prologue init ⟨s, .term pr, o⟩ t)
    (hone : OneTermPerVar ⟨s, .term pr, o⟩ t)
    (hinit : ∀ v ∈ init, Shows vars v → .var v ∈ [s, pr, o]) :
    visible vars (pageRow s pr o t) =
      visible vars (bindAll (PatternTriple.occurrences ⟨s, .term pr, o⟩ t) init) := by
  refine ext_lookup fun v => ?_
  rw [lookup_visible, lookup_visible, lookup_bindAll]
  split
  · rename_i hshown
    by_cases hmem : .var v ∈ [s, pr, o]
    · -- All that has to do with the variable is the term it meets.
      obtain ⟨x, hx⟩ := var_mem_iff_met.mp hmem
      rw [lookup_pageRow_of_met hone hx]
      cases hv : init.lookup v with
      | some y => rw [hfits _ hx y hv, some_or]
      | none =>
        rw [none_or]
        cases hf : firstMet (PatternTriple.occurrences ⟨s, .term pr, o⟩ t) v with
        | none => exact absurd hx (firstMet_eq_none hf x)
        | some y => rw [hone v x y hx (firstMet_mem hf)]
    · -- The variable is not in the pattern, so it has no initial value either.
      have hv : init.lookup v = none :=
        lookup_eq_none.mpr fun hinit' => hmem (hinit v hinit' hshown)
      have hf : firstMet (PatternTriple.occurrences ⟨s, .term pr, o⟩ t) v = none := by
        cases hf : firstMet (PatternTriple.occurrences ⟨s, .term pr, o⟩ t) v with
        | none => rfl
        | some x => exact absurd (var_mem_iff_met.mpr ⟨x, firstMet_mem hf⟩) hmem
      rw [lookup_pageRow_of_not_mem hmem, hv, hf]
      rfl
  · rfl

/-- Without the store's help, the page is cut from all solutions. -/
theorem bindings_of_no_pushdown
    (h : limitPushdown env g (pageQuery vars aliases p having (limitOf n) k) = none) :
    (evalQuery env ctx g (pageQuery vars aliases p having (limitOf n) k) init).bindings =
      (page n k (allSolutions env ctx g p init)).map (visible vars) := by
  rw [bindings_pageQuery, h, getD_none, sliceRows_eq_page, page_solutions]

/-- A store's page of the bare pattern, for a limit other than zero. -/
theorem triplesWithLimit_eq_page (qs : Queryable g.triples) (pat : TriplePattern)
    (hn : n ≠ some 0) :
    ∃ l, l ~ g.triples pat ∧ qs.triplesWithLimit pat (n.getD 0 : Nat) k = page n k l := by
  obtain ⟨l, hperm, hpage⟩ := qs.limit_spec pat (n.getD 0 : Nat) k
  refine ⟨l, hperm, hpage.trans ?_⟩
  cases n with
  | none => rfl
  | some n =>
    have hpos : (0 : Int) < ((some n).getD 0 : Nat) := by
      exact Int.natCast_pos.mpr (Nat.pos_of_ne_zero fun h => hn (congrArg some h))
    rw [if_pos hpos, Int.toNat_natCast]
    rfl

/-- A store has nothing behind its last match. -/
theorem triplesWithLimit_eq_nil (qs : Queryable g.triples) (pat : TriplePattern) (limit : Int)
    (h : (g.triples pat).length ≤ k) : qs.triplesWithLimit pat limit k = [] := by
  obtain ⟨l, hperm, hpage⟩ := qs.limit_spec pat limit k
  have hdrop : l.drop (k : Int).toNat = [] := by
    rw [drop_eq_nil_iff, hperm.length_eq]
    exact h
  rw [hpage, hdrop, take_nil, ite_self]

/-- The rows of a query with `LIMIT` and `OFFSET` are rows of the query without them,
    as many as these leave. -/
def IsPage (env : Env) (ctx : EvalCtx) (g : Graph) (vars : Option (List String))
    (aliases : List String) (p : Pattern) (having : Option Expr) (init : Row) (n : Option Nat)
    (k : Nat) : Prop :=
  let rows := (evalQuery env ctx g (pageQuery vars aliases p having (limitOf n) k) init).bindings
  let all := (evalQuery env ctx g (pageQuery vars aliases p having (-1) 0) init).bindings
  (rows : Multiset Row) ≤ (all : Multiset Row) ∧ rows.length = pageLength n k all.length

/-- What the rows are when the store is asked for them. -/
theorem bindings_of_pushdown {qs : Queryable g.triples}
    (hasked : (n.isSome || decide (0 < k)) = true)
    (hsimple : extractSimpleBGP p = some (s, pr, o)) (hqs : g.queryable = some qs) :
    (evalQuery env ctx g (pageQuery vars aliases p having (limitOf n) k) init).bindings =
      (qs.triplesWithLimit (buildStorePattern env.prologue s pr o) (n.getD 0 : Nat) k).map
        (visible vars ∘ pageRow s pr o) := by
  rw [bindings_pageQuery, limitPushdown_pageQuery, if_pos hasked, hsimple, hqs, bind_some,
    map_some, getD_some, List.map_map]

theorem bindings_unlimited :
    (evalQuery env ctx g (pageQuery vars aliases p having (-1) 0) init).bindings =
      (allSolutions env ctx g p init).map (visible vars) :=
  bindings_of_no_pushdown (n := none) (k := 0) rfl

/-- A page cut by the evaluator is a page. -/
theorem isPage_of_no_pushdown
    (h : limitPushdown env g (pageQuery vars aliases p having (limitOf n) k) = none) :
    IsPage env ctx g vars aliases p having init n k := by
  rw [IsPage, bindings_of_no_pushdown h, bindings_unlimited, length_map, length_map, length_page]
  exact ⟨Multiset.coe_le.mpr ((page_sublist n k _).map _).subperm, rfl⟩

/-- A page cut by the store is one if what it is asked for stands for the query. -/
theorem isPage_of_pagesExactly (hpage : PagesExactly env g p init vars n k) :
    IsPage env ctx g vars aliases p having init n k := by
  -- The store is only asked for a page of one plain triple pattern; otherwise the evaluator pages.
  by_cases hasked : (n.isSome || decide (0 < k)) = true
  swap
  · exact isPage_of_no_pushdown (limitPushdown_pageQuery.trans (if_neg hasked))
  cases hsimple : extractSimpleBGP p with
  | none =>
    refine isPage_of_no_pushdown (limitPushdown_pageQuery.trans ?_)
    rw [if_pos hasked, hsimple, bind_none]
  | some tp =>
    cases hqs : g.queryable with
    | none =>
      refine isPage_of_no_pushdown (limitPushdown_pageQuery.trans ?_)
      rw [if_pos hasked, hsimple, hqs]
      rfl
    | some qs =>
      obtain ⟨s, pr, o⟩ := tp
      have hqueryable : g.queryable.isSome = true := by rw [hqs]; rfl
      rw [IsPage, bindings_of_pushdown hasked hsimple hqs, bindings_unlimited]
      have hcases := hpage s pr o hsimple hqueryable hasked
      obtain ⟨rfl, hs, ho⟩ := extractSimpleBGP_eq_some hsimple
      rw [allSolutions_of_simple hs ho, List.map_map, length_map, length_map]
      rcases hcases with hfew | ⟨hn, hfits, hinit⟩
      · -- Nothing is left after the offset, for the store and for the evaluator.
        rw [triplesWithLimit_eq_nil qs _ _ hfew]
        have hle := (fittingTriples_subperm_bare init).length_le.trans hfew
        refine ⟨Multiset.zero_le _, ?_⟩
        cases n <;> simp [pageLength, Nat.sub_eq_zero_of_le hle]
      · -- The store pages through the triples that the evaluator matches.
        obtain ⟨l, hl, hstore⟩ := triplesWithLimit_eq_page (k := k) qs
          (buildStorePattern env.prologue s pr o) hn
        have hperm := hl.trans (fittingTriples_perm_bare fun t ht => (hfits t ht).1).symm
        have hsame : ∀ t ∈ page n k l, (visible vars ∘ pageRow s pr o) t = (visible vars ∘
              fun t => bindAll (PatternTriple.occurrences ⟨s, .term pr, o⟩ t) init) t := by
          intro t ht
          have hbare := hfits t (hl.mem_iff.mp ((page_sublist n k l).mem ht))
          exact visible_pageRow hbare.1 hbare.2 hinit
        have hle := Multiset.coe_le.mpr ((page_sublist n k l).subperm.trans hperm.subperm)
        rw [hstore, map_congr_left hsame, length_page, hperm.length_eq, ← Multiset.map_coe]
        exact ⟨Multiset.map_le_map hle, rfl⟩

/-- A solution has the initial bindings. -/
theorem mem_of_mem_allSolutions {tp : PatternTerm × PatternTerm × PatternTerm}
    (hsimple : extractSimpleBGP p = some tp) {row : Row}
    (hrow : row ∈ allSolutions env ctx g p init) {v : String} (hv : v ∈ init) : v ∈ row := by
  obtain ⟨rfl, -, -⟩ := extractSimpleBGP_eq_some hsimple
  rw [allSolutions_bgp] at hrow
  exact (extends_of_mem_evalBGP hrow).mem hv

/-- A store that has matches behind the offset makes a page that is none, if the limit
    is zero, or if the projection shows an initial binding that is not the pattern's. -/
theorem not_isPage (hasked : (n.isSome || decide (0 < k)) = true)
    (hsimple : extractSimpleBGP p = some (s, pr, o)) (hqueryable : g.queryable.isSome = true)
    (hmore : k < (g.triples (buildStorePattern env.prologue s pr o)).length)
    (hbad : n = some 0 ∨ ∃ v ∈ init, Shows vars v ∧ .var v ∉ [s, pr, o]) :
    ¬ IsPage env ctx g vars aliases p having init n k := by
  obtain ⟨qs, hqs⟩ := isSome_iff_exists.mp hqueryable
  rw [IsPage, bindings_of_pushdown hasked hsimple hqs, bindings_unlimited]
  rintro ⟨hle, hlen⟩
  by_cases hn : n = some 0
  · -- The store reads zero as no limit.
    obtain ⟨l, hl, hstore⟩ := qs.limit_spec (buildStorePattern env.prologue s pr o) (0 : Nat) k
    rw [hn, pageLength, Nat.zero_min, length_map, getD_some, hstore,
      if_neg (by decide : ¬ (0 : Int) < (0 : Nat)), length_drop, hl.length_eq] at hlen
    omega
  · obtain ⟨v, hv, hshown, hnot⟩ := hbad.resolve_left hn
    obtain ⟨l, hl, hstore⟩ := triplesWithLimit_eq_page (k := k) qs
      (buildStorePattern env.prologue s pr o) hn
    -- The page has a row, and no row of the page has a value for the variable.
    have hpos : 0 < (page n k l).length := by
      rw [length_page, hl.length_eq]
      cases n with
      | none => exact Nat.sub_pos_of_lt hmore
      | some n =>
        exact Nat.lt_min.mpr ⟨Nat.pos_of_ne_zero fun h => hn (congrArg some h),
          Nat.sub_pos_of_lt hmore⟩
    obtain ⟨t, ht⟩ := exists_mem_of_length_pos hpos
    have hrow : visible vars (pageRow s pr o t) ∈
        (allSolutions env ctx g p init).map (visible vars) := by
      refine Multiset.mem_coe.mp (Multiset.mem_of_le hle ?_)
      rw [hstore]
      exact Multiset.mem_coe.mpr (mem_map_of_mem ht)
    obtain ⟨row, hmem, heq⟩ := mem_map.mp hrow
    have hlookup := congrArg (Finmap.lookup v) heq
    rw [lookup_visible, lookup_visible, if_pos hshown, if_pos hshown,
      lookup_pageRow_of_not_mem hnot, lookup_eq_none] at hlookup
    exact hlookup (mem_of_mem_allSolutions hsimple hmem hv)

end

/-- Without grouping, ordering and `DISTINCT`, the rows under `LIMIT` and `OFFSET` are
    a page of the query's rows if what a store is asked for stands for the query. They
    are none if the store is asked, has matches behind the offset, and the limit is
    zero or an initial binding is shown that is not the pattern's. -/
theorem evalQuery_page (env : Env) (ctx : EvalCtx) (g : Graph) (vars : Option (List String))
    (aliases : List String) (p : Pattern) (having : Option Expr) (init : Row) (n : Option Nat)
    (k : Nat) :
    (PagesExactly env g p init vars n k → IsPage env ctx g vars aliases p having init n k) ∧
    ∀ s pr o, extractSimpleBGP p = some (s, pr, o) → g.queryable.isSome = true →
      (n.isSome || decide (0 < k)) = true →
      k < (g.triples (buildStorePattern env.prologue s pr o)).length →
      (n = some 0 ∨ ∃ v ∈ init, Shows vars v ∧ .var v ∉ [s, pr, o]) →
      ¬ IsPage env ctx g vars aliases p having init n k :=
  ⟨isPage_of_pagesExactly, fun _ _ _ hsimple hqueryable hasked hmore hbad =>
    not_isPage hasked hsimple hqueryable hmore hbad⟩

/-- A memory store with `<a> <p> <b>`. -/
def oneLink : Graph :=
  (TripleIndex.run [.add linkAB]).graph
    (TripleIndex.run_inv Term.injOn_termKey fun op _ => op.within_univ)

/-- `SELECT ?x { ?x <p> ?y } LIMIT 1`, and the same with `LIMIT 0`. -/
theorem evalQuery_page_oneLink :
    IsPage plainEnv plainCtx oneLink (some ["x"]) [] (.bgp [stepXY]) none ∅ (some 1) 0 ∧
      ¬ IsPage plainEnv plainCtx oneLink (some ["x"]) [] (.bgp [stepXY]) none ∅ (some 0) 0 := by
  have hbare : oneLink.triples (buildStorePattern plainPrologue (.var "x") (.const linkP.toTerm)
      (.var "y")) = [linkAB] := by decide
  refine ⟨(evalQuery_page plainEnv plainCtx oneLink (some ["x"]) [] (.bgp [stepXY]) none ∅
      (some 1) 0).1 fun s pr o hsimple _ _ => .inr
        ⟨by decide, ?_, fun _ h => by cases h⟩,
    (evalQuery_page plainEnv plainCtx oneLink (some ["x"]) [] (.bgp [stepXY]) none ∅ (some 0) 0).2
      _ _ _ rfl rfl rfl ?_ (.inl rfl)⟩
  swap
  · exact Nat.lt_of_lt_of_eq Nat.one_pos (congrArg List.length hbare).symm
  have hparts : some (PatternTerm.var "x", PatternTerm.const linkP.toTerm, PatternTerm.var "y") =
      some (s, pr, o) := hsimple
  obtain ⟨rfl, rfl, rfl⟩ := hparts
  intro t ht
  rw [show plainEnv.prologue = plainPrologue from rfl, hbare, List.mem_singleton] at ht
  rw [ht]
  refine ⟨fun e he x hx => ?_, fun v x y hx hy => ?_⟩
  · simp only [PatternTriple.occurrences, mem_cons, not_mem_nil, or_false] at he
    rcases he with rfl | rfl | rfl
    · cases hx
    · exact (some.inj hx).symm
    · cases hx
  · simp only [mem_occurrences_iff, Prod.mk.injEq, PatternTerm.var.injEq, reduceCtorEq, false_and,
      false_or] at hx hy
    rcases hx with ⟨rfl, rfl⟩ | ⟨rfl, rfl⟩ <;> rcases hy with ⟨h, rfl⟩ | ⟨h, rfl⟩
    · rfl
    · exact absurd h (by decide)
    · exact absurd h (by decide)
    · rfl

/-- `LIMIT 0` is no limit to a store: `SELECT ?x { ?x <p> ?y } LIMIT 0` returns a
    row. -/
theorem limit_zero_returns_row :
    ¬ ∀ (env : Env) (ctx : EvalCtx) (g : Graph) (vars : Option (List String))
      (aliases : List String) (p : Pattern) (having : Option Expr) (init : Row) (n : Option Nat)
      (k : Nat), IsPage env ctx g vars aliases p having init n k := by
  intro hall
  have hlen := (hall plainEnv plainCtx oneLink (some ["x"]) [] (.bgp [stepXY]) none ∅ (some 0) 0).2
  have hrows : (evalQuery plainEnv plainCtx oneLink
      (pageQuery (some ["x"]) [] (.bgp [stepXY]) none (limitOf (some 0)) (0 : Nat))
        ∅).bindings.length
        = 1 := by
    rw [bindings_pageQuery]
    decide
  rw [hrows, pageLength] at hlen
  exact Nat.one_ne_zero hlen

end GoRdf
