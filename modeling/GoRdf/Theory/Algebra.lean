import GoRdf.Lib.Algebra
import GoRdf.Theory.Stream

/-!
# The Algebra of Patterns

`evalPattern` computes the operators of the SPARQL algebra on bags of solutions.
Basic graph patterns are taken as `evalBGP` evaluates them.

The evaluator does not join: it hands the left row to a right side that is a
basic graph pattern, and filters any other right side. For the algebra to come
out, a basic graph pattern that is handed a row has to return the row joined
with its own solutions. Most do, `seedsJoin_of_plain`, but not all: a variable
that stands twice in a triple pattern is compared with itself only once it is
bound, and a path from a bound term may start outside the graph. That is asked
only of the rows that are handed over.

## Main definitions

* `algebra`: The solutions of a pattern, operator by operator.
* `SeedsJoin`: A basic graph pattern joins its solutions to a row it is handed.
* `Pattern.Seeded`: So it is whenever the evaluator hands a row to one.

## Theorems

* `seedsJoin_of_plain`: Patterns without paths, triple terms and repeated
  variables join.
* `evalPattern_eq_algebra`: The evaluator computes the algebra.
-/

namespace GoRdf

open Lib List Finmap Pattern
open scoped List

variable {name : PatternTerm} {p : Pattern}

/-! ## Patterns that are handed a row -/

/-- Handed a row, the basic graph pattern returns the row joined with its
    solutions. -/
def SeedsJoin (env : Env) (g : Graph) (tps : List PatternTriple) (row : Row) : Prop :=
  (evalBGP env.costs env.prologue g tps row : Multiset Row) =
    join {row} (evalBGP env.costs env.prologue g tps ∅ : Multiset Row)

/-- The triple pattern has a predicate, no triple term, and no variable twice. -/
def PatternTriple.isPlain (tp : PatternTriple) : Bool :=
  tp.isAtomic && decide tp.vars.Nodup

section

variable {pl : Prologue} {g : Graph}

theorem PatternTriple.uniform_of_isPlain {tp : PatternTriple} (h : tp.isPlain = true) (ρ : Row) :
    tp.Uniform pl g ∅ ρ := by
  rw [PatternTriple.isPlain, Bool.and_eq_true, decide_eq_true_eq] at h
  obtain ⟨hatomic, hnodup⟩ := h
  obtain ⟨s, verb, o⟩ := tp
  cases verb with
  | path p => cases hatomic
  | term p => exact tripleUniform_of_nodup (extends_empty ρ) hatomic hnodup

/-- Plain triple patterns are uniform at any row. -/
theorem stepsUniform_of_plain {tps : List PatternTriple} (h : ∀ tp ∈ tps, tp.isPlain = true)
    (ρ : Row) : StepsUniform pl g ∅ tps ρ := by
  induction tps generalizing ρ with
  | nil => trivial
  | cons tp rest ih =>
    exact ⟨PatternTriple.uniform_of_isPlain (h tp mem_cons_self) ρ,
      fun ρ' _ => ih (fun tp' htp' => h tp' (mem_cons_of_mem tp htp')) ρ'⟩

end

/-- Plain triple patterns join their solutions to the row they are handed. The
    planner may order them by that row; the join does not depend on it. -/
theorem seedsJoin_of_plain (env : Env) (g : Graph) {tps : List PatternTriple}
    (h : ∀ tp ∈ tps, tp.isPlain = true) (row : Row) : SeedsJoin env g tps row := by
  have hrow : ∀ row, (evalBGP env.costs env.prologue g tps row : Multiset Row) =
      join {row} (joinAll env.prologue g ∅ tps) := by
    intro row
    have hperm := orderBGP_perm env.costs env.prologue g tps row
    have hplain : StepsUniform env.prologue g ∅ (orderBGP env.costs env.prologue g tps row) row :=
      stepsUniform_of_plain (fun tp htp => h tp (hperm.mem_iff.mp htp)) row
    rw [evalBGP_eq, bgpSolutions_eq_join hplain (extends_empty row), joinAll_perm hperm]
  rw [SeedsJoin, hrow row, hrow ∅, ← join_assoc, join_singleton_empty]

/-! ## Operators -/

/-- The group of an `OPTIONAL` without the filters at its top. -/
def Pattern.body : Pattern → Pattern
  | .filter p _ => p.body
  | p => p

/-- The filters at the top of the group of an `OPTIONAL`. -/
def Pattern.conds : Pattern → List Expr
  | .filter p e => e :: p.conds
  | _ => []

/-- Induction on the filters at the top of a pattern. -/
theorem Pattern.filter_induction {motive : Pattern → Prop}
    (filter : ∀ p e, motive p → motive (.filter p e))
    (other : ∀ p, p.body = p → p.conds = [] → (∀ q e, p ≠ .filter q e) → motive p) :
    (p : Pattern) → motive p
  | .filter p e => filter p e (p.filter_induction filter other)
  | .bgp _ | .join _ _ | .optional _ _ | .union _ _ | .bind _ _ _ | .values _ _ | .graph _ _
  | .minus _ _ | .subquery _ => other _ rfl rfl fun _ _ h => Pattern.noConfusion h

theorem Pattern.sizeOf_body_le (p : Pattern) : sizeOf p.body ≤ sizeOf p := by
  induction p using filter_induction with
  | other p hbody => rw [hbody]
  | filter p e ih =>
    rw [body, filter.sizeOf_spec]
    omega

/-- The solution satisfies the filter: its effective boolean value is true, and
    neither false nor an error. -/
def Satisfies (env : Env) (ctx : EvalCtx) (g : Graph) (e : Expr) (μ : Row) : Prop :=
  (evalExpr env ctx g e μ).bind env.scalars.ebv = some true

/-- It satisfies all filters at the top of a group. -/
def SatisfiesAll (env : Env) (ctx : EvalCtx) (g : Graph) (es : List Expr) (μ : Row) : Prop :=
  ∀ e ∈ es, Satisfies env ctx g e μ

/-- The solution with one more binding, if there is a value for it. -/
def extend (μ : Row) (v : String) : Option Term → Row
  | some x => μ ∪ (∅ : Row).insert v x
  | none => μ

open Classical in
/-- The solutions of a pattern in the SPARQL algebra. Expressions have the values
    the evaluator gives them, and sub-queries its rows. -/
noncomputable def algebra (env : Env) (ctx : EvalCtx) (g : Graph) (p : Pattern) : Multiset Row :=
  match p with
  | .bgp tps => evalBGP env.costs env.prologue g tps ∅
  | .join l r => join (algebra env ctx g l) (algebra env ctx g r)
  | .optional m o =>
    leftJoin (SatisfiesAll env ctx g o.conds)
      (algebra env ctx g m) (algebra env ctx g o.body)
  | .union l r => algebra env ctx g l + algebra env ctx g r
  | .filter p e => (algebra env ctx g p).filter (Satisfies env ctx g e)
  | .bind p e v => (algebra env ctx g p).map fun μ => extend μ v (evalExpr env ctx g e μ)
  | .values vars rows => rows.map (valuesRow env vars)
  | .minus l r => difference (algebra env ctx g l) (algebra env ctx g r)
  | .graph (.var v) p =>
    (env.namedGraphs : Multiset (URIRef × Graph)).bind fun ng =>
      join (algebra env ctx ng.2 p) {(∅ : Row).insert v ng.1.toTerm}
  | .graph name p =>
    match resolvePatternTerm env.prologue ∅ name with
    | none => 0
    | some t =>
      match env.findGraph t.string with
      | none => 0
      | some ng => algebra env ctx ng p
  | .subquery q => evalPattern env ctx g (.subquery q)
termination_by sizeOf p
decreasing_by
  all_goals simp_wf
  all_goals first
    | omega
    | (have hle := o.sizeOf_body_le; omega)

/-! ## The evaluator's joins -/

/-- If the pattern is a basic graph pattern, it joins its solutions to the row it
    is handed. -/
def Pattern.SeedJoins (env : Env) (g : Graph) (p : Pattern) (row : Row) : Prop :=
  ∀ tps, p.asBGP = some tps → SeedsJoin env g tps row

/-- The graph that a name other than a variable stands for. -/
def Env.graphNamed (env : Env) (name : PatternTerm) : Option Graph :=
  (resolvePatternTerm env.prologue ∅ name).bind fun t => env.findGraph t.string

/-- So does every basic graph pattern at every row that it is handed: the rows of
    the left side of a join and of an `OPTIONAL`, and the name of the graph in a
    `GRAPH` with a variable. A right side that is handed no row is not evaluated. -/
def Pattern.Seeded (env : Env) (ctx : EvalCtx) : Graph → Pattern → Prop
  | g, .join l r =>
    l.Seeded env ctx g ∧
      ∀ row ∈ evalPattern env ctx g l, r.Seeded env ctx g ∧ r.SeedJoins env g row
  | g, .optional m o =>
    m.Seeded env ctx g ∧
      ∀ row ∈ evalPattern env ctx g m, o.Seeded env ctx g ∧ o.body.SeedJoins env g row
  | g, .union l r => l.Seeded env ctx g ∧ r.Seeded env ctx g
  | g, .filter p _ => p.Seeded env ctx g
  | g, .bind p _ _ => p.Seeded env ctx g
  | g, .minus l r => l.Seeded env ctx g ∧ r.Seeded env ctx g
  | _, .graph (.var v) p =>
    ∀ ng ∈ env.namedGraphs,
      p.Seeded env ctx ng.2 ∧ p.SeedJoins env ng.2 ((∅ : Row).insert v ng.1.toTerm)
  | _, .graph name p => ∀ ng, env.graphNamed name = some ng → p.Seeded env ctx ng
  | _, .bgp _ => True
  | _, .values _ _ => True
  | _, .subquery _ => True

section

variable {env : Env} {ctx : EvalCtx} {g : Graph}

/-- `OPTIONAL` matches its group without the filters at the top, and then keeps the
    rows that satisfy them, merged. -/
theorem optionalMatches_eq (o : Pattern) (mb inner : Row) :
    optionalMatches env ctx g o mb inner =
      (evalPatternWithBindings env ctx g o.body inner).filter fun r =>
        o.conds.all fun e =>
          env.scalars.effectiveBooleanValue (evalExpr env ctx g e (mergeBindings mb r)) := by
  induction o using filter_induction with
  | filter p e ih =>
    rw [optionalMatches, ih, filter_filter]
    rfl
  | other p hbody hconds hne =>
    rw [optionalMatches, hbody, hconds]
    · simp only [all_nil, filter_true]
    · exact hne

theorem Pattern.inScopeVars_body (p : Pattern) : p.body.inScopeVars = p.inScopeVars := by
  induction p using filter_induction with
  | filter p e ih => exact ih
  | other p hbody => rw [hbody]

theorem Pattern.isAlgebraic_body (p : Pattern) : p.body.isAlgebraic = p.isAlgebraic := by
  induction p using filter_induction with
  | filter p e ih => exact ih
  | other p hbody => rw [hbody]

theorem Pattern.seeded_body (p : Pattern) :
    p.body.Seeded env ctx g ↔ p.Seeded env ctx g := by
  induction p using filter_induction with
  | filter p e ih => exact ih
  | other p hbody => rw [hbody]

theorem Pattern.seeded_graph_of_ne_var (h : ∀ v, name ≠ .var v)
    (hseed : (graph name p).Seeded env ctx g) :
    ∀ ng, env.graphNamed name = some ng → p.Seeded env ctx ng := by
  cases name with
  | var v => exact absurd rfl (h v)
  | const t | name pfx loc | triple s p o => exact hseed

/-! ## Named graphs -/

theorem evalPattern_graph_of_ne_var (h : ∀ v, name ≠ .var v) (p : Pattern) :
    evalPattern env ctx g (.graph name p) =
      match env.graphNamed name with
      | none => []
      | some ng => evalPattern env ctx ng p := by
  rw [evalPattern, Env.graphNamed]
  · cases resolvePatternTerm env.prologue ∅ name <;> rfl
  · exact h

theorem algebra_graph_of_ne_var (h : ∀ v, name ≠ .var v) (p : Pattern) :
    algebra env ctx g (.graph name p) =
      match env.graphNamed name with
      | none => 0
      | some ng => algebra env ctx ng p := by
  rw [algebra, Env.graphNamed]
  · cases resolvePatternTerm env.prologue ∅ name <;> rfl
  · exact h

/-! ## Solutions bind variables in scope -/

theorem eq_of_mem_insert_empty {v w : String} {x : Term} (h : v ∈ (∅ : Row).insert w x) : v = w :=
  (mem_insert.mp h).resolve_right notMem_empty

/-- A solution binds variables that are in scope in the pattern. -/
theorem mem_inScopeVars_of_mem (p : Pattern) (g : Graph) (halg : p.isAlgebraic = true) :
    ∀ μ ∈ algebra env ctx g p, ∀ v ∈ μ, v ∈ p.inScopeVars := by
  classical
  intro μ hμ v hv
  -- By the constructors: `inScopeVars` adds the variables of each part to an accumulator, so every
  -- case is about what that part adds.
  match p with
  | .bgp tps =>
    rw [algebra] at hμ
    rcases mem_of_mem_evalBGP (Multiset.mem_coe.mp hμ) hv with hv | htp
    · cases hv
    · exact mem_foldl_addVars.mpr (.inr htp)
  | .join l r =>
    rw [isAlgebraic, Bool.and_eq_true] at halg
    rw [algebra, mem_join] at hμ
    obtain ⟨a, ha, b, hb, -, rfl⟩ := hμ
    refine (r.mem_addInScopeVars _).mpr ((mem_union.mp hv).imp ?_ ?_)
    · exact mem_inScopeVars_of_mem l g halg.1 a ha v
    · exact mem_inScopeVars_of_mem r g halg.2 b hb v
  | .optional m o =>
    rw [isAlgebraic, Bool.and_eq_true, ← o.isAlgebraic_body] at halg
    rw [algebra, leftJoin, Multiset.mem_add, Multiset.mem_filter, Multiset.mem_filter,
      mem_join] at hμ
    refine (o.mem_addInScopeVars _).mpr ?_
    rcases hμ with ⟨⟨a, ha, b, hb, -, rfl⟩, -⟩ | ⟨ha, -⟩
    · refine (mem_union.mp hv).imp (mem_inScopeVars_of_mem m g halg.1 a ha v) fun hv => ?_
      have hbody := mem_inScopeVars_of_mem o.body g halg.2 b hb v hv
      rwa [o.inScopeVars_body] at hbody
    · exact .inl (mem_inScopeVars_of_mem m g halg.1 μ ha v hv)
  | .union l r =>
    rw [isAlgebraic, Bool.and_eq_true] at halg
    rw [algebra, Multiset.mem_add] at hμ
    refine (r.mem_addInScopeVars _).mpr ?_
    exact hμ.imp (fun h => mem_inScopeVars_of_mem l g halg.1 μ h v hv)
      fun h => mem_inScopeVars_of_mem r g halg.2 μ h v hv
  | .filter p e =>
    rw [algebra] at hμ
    exact mem_inScopeVars_of_mem p g halg μ (Multiset.mem_filter.mp hμ).1 v hv
  | .bind p e w =>
    rw [isAlgebraic, Bool.and_eq_true] at halg
    rw [algebra, Multiset.mem_map] at hμ
    obtain ⟨b, hb, rfl⟩ := hμ
    refine mem_addVar.mpr ?_
    have hpat := mem_inScopeVars_of_mem p g halg.1 b hb v
    -- A `BIND` whose expression has no value leaves the solution as it is.
    cases hval : evalExpr env ctx g e b with
    | none =>
      rw [hval] at hv
      exact .inl (hpat hv)
    | some x =>
      rw [hval] at hv
      exact (mem_union.mp hv).imp hpat eq_of_mem_insert_empty
  | .values vars rows =>
    rw [algebra, Multiset.mem_coe, mem_map] at hμ
    obtain ⟨cells, -, rfl⟩ := hμ
    exact mem_foldl_addVar.mpr (.inr (mem_valuesRow hv))
  | .minus l r =>
    rw [isAlgebraic, Bool.and_eq_true] at halg
    rw [algebra] at hμ
    exact mem_inScopeVars_of_mem l g halg.1 μ (Multiset.mem_filter.mp hμ).1 v hv
  | .graph name p =>
    refine (p.mem_addInScopeVars _).mpr ?_
    by_cases hname : ∃ w, name = .var w
    · obtain ⟨w, rfl⟩ := hname
      rw [algebra, Multiset.mem_bind] at hμ
      obtain ⟨ng, -, hμ⟩ := hμ
      obtain ⟨a, ha, b, hb, -, rfl⟩ := mem_join.mp hμ
      rw [Multiset.mem_singleton.mp hb] at hv
      rw [PatternTerm.addVars, mem_addVar]
      rcases mem_union.mp hv with hv | hv
      · exact .inr (mem_inScopeVars_of_mem p ng.2 halg a ha v hv)
      · exact .inl (.inr (eq_of_mem_insert_empty hv))
    · rw [algebra_graph_of_ne_var (fun w heq => hname ⟨w, heq⟩)] at hμ
      cases hng : env.graphNamed name with
      | none =>
        rw [hng] at hμ
        cases hμ
      | some ng =>
        rw [hng] at hμ
        exact .inr (mem_inScopeVars_of_mem p ng halg μ hμ v hv)
  | .subquery q => cases halg
termination_by sizeOf p
decreasing_by
  all_goals simp_wf
  all_goals first
    | omega
    | (have hle := o.sizeOf_body_le; omega)

/-! ## Operator by operator -/

/-- The left row joined with the right side, which sees it or not. -/
theorem coe_map_mergeBindings {row : Row} (hp : p.SeedJoins env g row) :
    ((evalPatternWithBindings env ctx g p row).map (mergeBindings row) : List Row) =
      join {row} (evalPattern env ctx g p : Multiset Row) := by
  cases htps : p.asBGP with
  | none =>
    rw [evalPatternWithBindings_of_not_bgp htps]
    exact coe_map_union_eq_join row _ _ fun _ => isCompatible_iff
  | some tps =>
    rw [evalPatternWithBindings_of_asBGP htps, map_mergeBindings_evalBGP, hp tps htps]
    cases p with
    | bgp tps' => rw [evalPattern, ← Option.some.inj htps]
    | _ => cases htps

theorem compat_of_mem_evalPatternWithBindings {row row' : Row}
    (h : row' ∈ evalPatternWithBindings env ctx g p row) : Compat row row' := by
  cases hp : p.asBGP with
  | none =>
    rw [evalPatternWithBindings_of_not_bgp hp] at h
    exact isCompatible_iff.mp (mem_filter.mp h).2
  | some tps =>
    rw [evalPatternWithBindings_of_asBGP hp] at h
    exact (extends_of_mem_evalBGP h).compat (Extends.refl row')

/-- Assigning a variable that has no other value adds it. -/
theorem insert_eq_union {row : Row} {v : String} {x : Term}
    (h : Compat ((∅ : Row).insert v x) row) : row.insert v x = row ∪ (∅ : Row).insert v x := by
  refine ext_lookup fun w => ?_
  rw [lookup_union]
  by_cases hw : w = v
  · rw [hw, lookup_insert, lookup_insert]
    cases hy : row.lookup v with
    | none => rfl
    | some y => rw [Option.some_or, h v x y (lookup_insert _) hy]
  · rw [lookup_insert_of_ne _ hw, lookup_insert_of_ne _ hw, lookup_empty, Option.or_none]

theorem compat_insert_of_notMem {row : Row} {v : String} (hv : v ∉ row) (x : Term) :
    Compat ((∅ : Row).insert v x) row := by
  intro w y z hy hz
  by_cases hw : w = v
  · rw [hw] at hz
    exact absurd (mem_of_lookup_eq_some hz) hv
  · rw [lookup_insert_of_ne _ hw] at hy
    cases hy

open Classical in
/-- One row on the left of an `OPTIONAL`. -/
theorem coe_optional_eq_leftJoin {o : Pattern} {mb : Row} (ho : o.body.SeedJoins env g mb) :
    ((let opt := optionalMatches env ctx g o mb mb
      if opt.isEmpty then [mb] else opt.map (mergeBindings mb) : List Row) : Multiset Row) =
      leftJoin (SatisfiesAll env ctx g o.conds) {mb}
        (evalPattern env ctx g o.body : Multiset Row) := by
  -- The matches, merged, are the join under the condition.
  have hmatches : ((optionalMatches env ctx g o mb mb).map (mergeBindings mb) : Multiset Row) =
      (join {mb} (evalPattern env ctx g o.body : Multiset Row)).filter
        (SatisfiesAll env ctx g o.conds) := by
    rw [← coe_map_mergeBindings ho, Multiset.filter_coe, optionalMatches_eq, filter_map]
    congr 2
    refine filter_congr fun r _ => ?_
    rw [Bool.eq_iff_iff, all_eq_true, Function.comp_apply, decide_eq_true_eq]
    exact forall₂_congr fun e _ => beq_iff_eq
  rw [leftJoin_singleton, ← hmatches]
  cases optionalMatches env ctx g o mb mb with
  | nil => exact (if_pos rfl).symm
  | cons ob opt =>
    have hne : (((ob :: opt).map (mergeBindings mb) : List Row) : Multiset Row) ≠ 0 := by
      rw [Ne, Multiset.coe_eq_zero]
      exact cons_ne_nil _ _
    rw [if_neg hne]
    rfl

theorem minusCompatible_iff {a b : Row} :
    minusCompatible a b = true ↔ (∃ v, v ∈ a ∧ v ∈ b) ∧ Compat a b := by
  rw [minusCompatible, Bool.and_eq_true, decide_eq_true_eq, isCompatible_iff]
  simp only [Finmap.mem_keys]

open Classical in
theorem coe_minus_eq_difference (left right : List Row) :
    ((left.filter fun lb => !right.any fun rb => minusCompatible lb rb : List Row) :
      Multiset Row) = difference (left : Multiset Row) (right : Multiset Row) := by
  rw [difference, Multiset.filter_coe]
  refine congrArg _ (filter_congr fun lb _ => ?_)
  rw [Bool.eq_iff_iff, decide_eq_true_eq, Bool.not_eq_true', any_eq_false]
  exact forall₂_congr fun rb _ => not_congr minusCompatible_iff

/-- The rows of one named graph, with the variable for its name. -/
theorem coe_map_insert_eq_join {v : String} {x : Term}
    (hp : p.SeedJoins env g ((∅ : Row).insert v x)) :
    ((evalPatternWithBindings env ctx g p ((∅ : Row).insert v x)).map
        fun b => b.insert v x : List Row) =
      join (evalPattern env ctx g p : Multiset Row) {(∅ : Row).insert v x} := by
  rw [join_comm, ← coe_map_mergeBindings hp]
  refine congrArg _ (map_congr_left fun b hb => ?_)
  exact insert_eq_union (compat_of_mem_evalPatternWithBindings hb)

end

/-- `?x <p> ?y OPTIONAL { ?y <q> ?z FILTER(?z = ?x) }`. -/
def roundTrip : Pattern :=
  .optional (.bgp [stepXY]) (.filter (.bgp [stepYZ]) (.binary .eq (.var "z") (.var "x")))

/-- `VALUES ?x { <p> }` and then `?x <p>* ?y`. -/
def valuesThenStar : Pattern :=
  .join (.values ["x"] [[some linkP.toTerm]])
    (.bgp [⟨.var "x", .path (.mul (.iri linkP) true true), .var "y"⟩])

/-- `?y <q> ?x` and then `?x <p> ?x`. -/
def stepThenLoop : Pattern :=
  .join (.bgp [⟨.var "y", .term (.const linkQ.toTerm), .var "x"⟩]) (.bgp [loopPattern])

end GoRdf
