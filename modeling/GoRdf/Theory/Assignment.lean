import GoRdf.Theory.Scope

/-!
# Variables That Are Assigned

`BIND` and `SELECT (… AS ?v)` may only assign a variable that is not in scope. The parser
finds the variables of a pattern with `collectPatternVars`, and `SELECT *` with
`addInScopeVars`. The first looks at fewer places than the second, and at some assignments
the parser does not look at all.

## Main definitions

* `Pattern.Shows`, `Pattern.Hides`: A variable in scope stands at a place that the parser
  looks at, or at one that is left out.
* `Pattern.Assigns`: An assignment somewhere in a pattern.
* `Query.checked`: The assignments that the parser looks at.

## Theorems

* `Pattern.mem_collectVarsInto`: What is collected is what shows.
* `Pattern.mem_inScopeVars_iff`: In scope is what shows or is hidden.
* `Query.validateScope_iff`: What the checks establish.
* `scope_checks_iff`: When the two agree, and when a query that is accepted is safe.
-/

namespace GoRdf

open List Pattern

variable {v : String} {vars : List String}

/-! ## Places in plain view, and hidden ones -/

/-- The terms of a triple pattern, position by position. -/
def PatternTriple.positions : PatternTriple → List PatternTerm
  | ⟨s, .term p, o⟩ => [s, p, o]
  | ⟨s, .path _, o⟩ => [s, o]

/-- The variable stands in plain view: as a position of a triple pattern, after `AS` in a
    `BIND`, or in the list of variables of a sub-query. -/
def Pattern.Shows (v : String) : Pattern → Prop
  | .bgp tps => ∃ tp ∈ tps, .var v ∈ tp.positions
  | .join l r | .optional l r | .union l r => l.Shows v ∨ r.Shows v
  | .filter p _ => p.Shows v
  | .bind p _ w => p.Shows v ∨ v = w
  | .subquery q => ∃ vs, q.modifiers.vars = some vs ∧ v ∈ vs
  | .values _ _ => False
  | .graph _ _ => False
  | .minus _ _ => False

mutual

/-- The variable is in scope by a hidden place: inside a triple term, in `VALUES`, `GRAPH`,
    on the left of `MINUS`, in a `SELECT *`, or after `AS` in the projection of a
    sub-query. -/
def Pattern.Hides (v : String) : Pattern → Prop
  | .bgp tps => ∃ tp ∈ tps, ∃ pt ∈ tp.positions, pt ≠ .var v ∧ v ∈ pt.vars
  | .join l r | .optional l r | .union l r => l.Hides v ∨ r.Hides v
  | .filter p _ => p.Hides v
  | .bind p _ _ => p.Hides v
  | .values vs _ => v ∈ vs
  | .graph name p => v ∈ name.vars ∨ p.Shows v ∨ p.Hides v
  | .minus l _ => l.Shows v ∨ l.Hides v
  | .subquery q => q.Hides v

/-- The same for the pattern or the projection of a sub-query. -/
def Query.Hides (v : String) : Query → Prop
  | .mk m p ps _ _ _ =>
    match m.vars with
    | none => p.Shows v ∨ p.Hides v
    | some _ => v ∈ ps.map ProjectExpr.var

end

theorem PatternTriple.vars_eq (tp : PatternTriple) :
    tp.vars = tp.positions.flatMap PatternTerm.vars := by
  obtain ⟨s, verb, o⟩ := tp
  cases verb <;> simp [PatternTriple.vars, positions]

theorem PatternTriple.mem_collectVars (tp : PatternTriple) (vars : List String) :
    v ∈ tp.collectVars vars ↔ v ∈ vars ∨ .var v ∈ tp.positions := by
  have hpt : ∀ (pt : PatternTerm) (vars : List String),
      v ∈ pt.collectVars vars ↔ v ∈ vars ∨ .var v = pt := by
    intro pt vars
    cases pt <;> simp [PatternTerm.collectVars, mem_addVar]
  obtain ⟨s, verb, o⟩ := tp
  cases verb <;> simp [PatternTriple.collectVars, positions, hpt, or_assoc]

/-- What is collected is what stands in plain view. -/
theorem Pattern.mem_collectVarsInto : (p : Pattern) → (vars : List String) →
    (v ∈ p.collectVarsInto vars ↔ v ∈ vars ∨ p.Shows v)
  | .bgp tps, vars =>
    Lib.foldl_iff (M := (v ∈ ·)) (fun vars tp => tp.mem_collectVars vars) tps vars
  | .join l r, vars | .optional l r, vars | .union l r, vars => by
    rw [collectVarsInto, r.mem_collectVarsInto, l.mem_collectVarsInto, or_assoc, Shows]
  | .filter p _, vars => p.mem_collectVarsInto vars
  | .bind p _ w, vars => by
    rw [collectVarsInto, mem_addVar, p.mem_collectVarsInto, or_assoc, Shows]
  | .values _ _, vars | .graph _ _, vars | .minus _ _, vars => by
    rw [collectVarsInto, Shows, or_false]
  | .subquery q, vars => by
    rw [collectVarsInto, mem_foldl_addVar, Shows]
    cases q.modifiers.vars <;> simp

/-- Two parts of a pattern, one after the other. -/
theorem Pattern.mem_inScope_parts {l r : Pattern}
    (hl : v ∈ l.inScopeVars ↔ l.Shows v ∨ l.Hides v)
    (hr : v ∈ r.inScopeVars ↔ r.Shows v ∨ r.Hides v) :
    v ∈ r.addInScopeVars l.inScopeVars ↔
      (l.Shows v ∨ r.Shows v) ∨ l.Hides v ∨ r.Hides v := by
  have hr' : v ∈ r.addInScopeVars [] ↔ r.Shows v ∨ r.Hides v := hr
  rw [r.mem_addInScopeVars, hl, hr', or_or_or_comm]

mutual

/-- What is in scope stands in plain view or is hidden. -/
theorem Pattern.mem_inScopeVars_iff : (p : Pattern) →
    (v ∈ p.inScopeVars ↔ p.Shows v ∨ p.Hides v)
  | .bgp tps => by
    rw [inScopeVars, addInScopeVars, mem_foldl_addVars, Shows, Hides, ← exists_or]
    simp only [not_mem_nil, false_or, ← and_or_left, PatternTriple.vars_eq, mem_flatMap]
    refine exists_congr fun tp => and_congr_right fun _ => ⟨?_, ?_⟩
    · rintro ⟨pt, hpt, hv⟩
      by_cases heq : pt = .var v
      · exact .inl (heq ▸ hpt)
      · exact .inr ⟨pt, hpt, heq, hv⟩
    · rintro (hpt | ⟨pt, hpt, -, hv⟩)
      · exact ⟨_, hpt, mem_singleton_self v⟩
      · exact ⟨pt, hpt, hv⟩
  | .join l r | .optional l r | .union l r =>
    mem_inScope_parts l.mem_inScopeVars_iff r.mem_inScopeVars_iff
  | .filter p _ => p.mem_inScopeVars_iff
  | .bind p _ w => by
    have hp : v ∈ p.addInScopeVars [] ↔ p.Shows v ∨ p.Hides v := p.mem_inScopeVars_iff
    rw [inScopeVars, addInScopeVars, mem_addVar, hp, Shows, Hides, or_right_comm]
  | .values vs _ => by
    simp [inScopeVars, addInScopeVars, mem_foldl_addVar, Shows, Hides]
  | .graph name p => by
    have hp : v ∈ p.addInScopeVars [] ↔ p.Shows v ∨ p.Hides v := p.mem_inScopeVars_iff
    rw [inScopeVars, addInScopeVars, p.mem_addInScopeVars, hp, PatternTerm.mem_addVars, Shows,
      Hides]
    simp
  | .minus l _ => by
    have hl : v ∈ l.addInScopeVars [] ↔ l.Shows v ∨ l.Hides v := l.mem_inScopeVars_iff
    rw [inScopeVars, addInScopeVars, hl, Shows, Hides, false_or]
  | .subquery q => q.mem_inScopeVars_iff

theorem Query.mem_inScopeVars_iff : (q : Query) →
    (v ∈ q.addInScopeVars [] ↔ (Pattern.subquery q).Shows v ∨ q.Hides v)
  | .mk m p ps _ _ _ => by
    have hp : v ∈ p.addInScopeVars [] ↔ p.Shows v ∨ p.Hides v := p.mem_inScopeVars_iff
    rw [Query.addInScopeVars, Shows, Query.Hides, Query.modifiers]
    cases m.vars with
    | none => simp [hp]
    | some vs => simp [mem_foldl_addVar]

end

/-! ## Assignments -/

/-- The pattern whose solutions are extended, and the variable that is assigned. -/
abbrev Assignment := Pattern × String

mutual

/-- An assignment in the patterns of an expression. -/
inductive Expr.Assigns (a : Assignment) : Expr → Prop
  | left {op l r} (h : Expr.Assigns a l) : Expr.Assigns a (.binary op l r)
  | right {op l r} (h : Expr.Assigns a r) : Expr.Assigns a (.binary op l r)
  | unary {op e} (h : Expr.Assigns a e) : Expr.Assigns a (.unary op e)
  | arg {f args e} (he : e ∈ args) (h : Expr.Assigns a e) : Expr.Assigns a (.func f args)
  | exist {p negated} (h : Pattern.Assigns a p) : Expr.Assigns a (.exist p negated)

/-- An assignment somewhere in a pattern. -/
inductive Pattern.Assigns (a : Assignment) : Pattern → Prop
  | joinLeft {l r} (h : Pattern.Assigns a l) : Pattern.Assigns a (.join l r)
  | joinRight {l r} (h : Pattern.Assigns a r) : Pattern.Assigns a (.join l r)
  | main {m o} (h : Pattern.Assigns a m) : Pattern.Assigns a (.optional m o)
  | opt {m o} (h : Pattern.Assigns a o) : Pattern.Assigns a (.optional m o)
  | unionLeft {l r} (h : Pattern.Assigns a l) : Pattern.Assigns a (.union l r)
  | unionRight {l r} (h : Pattern.Assigns a r) : Pattern.Assigns a (.union l r)
  | filter {p e} (h : Pattern.Assigns a p) : Pattern.Assigns a (.filter p e)
  | condition {p e} (h : Expr.Assigns a e) : Pattern.Assigns a (.filter p e)
  | here {p e v} (h : a = (p, v)) : Pattern.Assigns a (.bind p e v)
  | bind {p e v} (h : Pattern.Assigns a p) : Pattern.Assigns a (.bind p e v)
  | value {p e v} (h : Expr.Assigns a e) : Pattern.Assigns a (.bind p e v)
  | graph {name p} (h : Pattern.Assigns a p) : Pattern.Assigns a (.graph name p)
  | minusLeft {l r} (h : Pattern.Assigns a l) : Pattern.Assigns a (.minus l r)
  | minusRight {l r} (h : Pattern.Assigns a r) : Pattern.Assigns a (.minus l r)
  | subquery {q} (h : Query.Assigns a q) : Pattern.Assigns a (.subquery q)

/-- An assignment somewhere in a query. -/
inductive Query.Assigns (a : Assignment) : Query → Prop
  | pattern {m p ps gs hs os} (h : Pattern.Assigns a p) : Query.Assigns a (.mk m p ps gs hs os)
  | here {m p ps gs hs os} {pe : ProjectExpr} (hpe : pe ∈ ps) (h : a = (p, pe.var)) :
      Query.Assigns a (.mk m p ps gs hs os)
  | project {m p ps gs hs os} {pe : ProjectExpr} (hpe : pe ∈ ps) (h : Expr.Assigns a pe.expr) :
      Query.Assigns a (.mk m p ps gs hs os)
  | group {m p ps gs hs os e} (he : e ∈ gs) (h : Expr.Assigns a e) :
      Query.Assigns a (.mk m p ps gs hs os)
  | having {m p ps gs e os} (h : Expr.Assigns a e) : Query.Assigns a (.mk m p ps gs (some e) os)
  | order {m p ps gs hs os e desc} (he : OrderExpr.mk e desc ∈ os) (h : Expr.Assigns a e) :
      Query.Assigns a (.mk m p ps gs hs os)

end

mutual

/-- The assignments that `validateBindScope` looks at. -/
def Pattern.checked : Pattern → List Assignment
  | .bind p _ v => (p, v) :: p.checked
  | .join l r => l.checked ++ r.checked
  | .optional m o => m.checked ++ o.checked
  | .union l r => l.checked ++ r.checked
  | .filter p _ => p.checked
  | .minus l r => l.checked ++ r.checked
  | .subquery q => q.whereChecked
  | .bgp _ => []
  | .values _ _ => []
  | .graph _ _ => []

/-- The same for the `WHERE` clause of a query. -/
def Query.whereChecked : Query → List Assignment
  | .mk _ p _ _ _ _ => p.checked

end

/-- The assignments that the parser looks at. -/
def Query.checked (q : Query) : List Assignment :=
  q.whereChecked ++
    if q.modifiers.type = .select then q.projectExprs.map fun pe => (q.pattern, pe.var) else []

/-- No assignment is to a variable that a solution of its group may already bind. -/
def Query.NoRebind (q : Query) : Prop :=
  ∀ a, q.Assigns a → a.2 ∉ a.1.inScopeVars

/-- What the checks of some assignments leave open: no assignment is to a variable that is
    hidden in its group, and none that is not looked at is to one in plain view. -/
def Query.Covered (checked : List Assignment) (q : Query) : Prop :=
  ∀ a, q.Assigns a → ¬ a.1.Hides a.2 ∧ (a ∉ checked → ¬ a.1.Shows a.2)

/-! ## What the checks establish -/

theorem Except.bind_eq_ok_unit {x y : Except String Unit} :
    (do x; y) = .ok () ↔ x = .ok () ∧ y = .ok () := by
  cases x with
  | error e => exact ⟨nofun, fun h => nomatch h.1⟩
  | ok u => exact ⟨fun h => ⟨rfl, h⟩, And.right⟩

theorem validate_parts {l r : Except String Unit} {as bs : List Assignment}
    (hl : l = .ok () ↔ ∀ a ∈ as, a.2 ∉ a.1.collectPatternVars)
    (hr : r = .ok () ↔ ∀ a ∈ bs, a.2 ∉ a.1.collectPatternVars) :
    (do l; r) = .ok () ↔ ∀ a ∈ as ++ bs, a.2 ∉ a.1.collectPatternVars := by
  rw [Except.bind_eq_ok_unit, hl, hr, forall_mem_append]

mutual

theorem Pattern.validateBindScope_iff : (p : Pattern) →
    (p.validateBindScope = .ok () ↔ ∀ a ∈ p.checked, a.2 ∉ a.1.collectPatternVars)
  | .bind p _ v => by
    rw [validateBindScope, checked, forall_mem_cons, ← p.validateBindScope_iff]
    split
    · rename_i hv
      exact ⟨nofun, fun h => absurd hv h.1⟩
    · rename_i hv
      exact ⟨fun h => ⟨hv, h⟩, And.right⟩
  | .join l r => validate_parts l.validateBindScope_iff r.validateBindScope_iff
  | .optional m o => validate_parts m.validateBindScope_iff o.validateBindScope_iff
  | .union l r => validate_parts l.validateBindScope_iff r.validateBindScope_iff
  | .filter p _ => p.validateBindScope_iff
  | .minus l r => validate_parts l.validateBindScope_iff r.validateBindScope_iff
  | .subquery q => q.validateBindScope_iff
  | .bgp _ => by simp [validateBindScope, checked]
  | .values _ _ => by simp [validateBindScope, checked]
  | .graph _ _ => by simp [validateBindScope, checked]

theorem Query.validateBindScope_iff : (q : Query) →
    (q.validateBindScope = .ok () ↔ ∀ a ∈ q.whereChecked, a.2 ∉ a.1.collectPatternVars)
  | .mk _ p _ _ _ _ => p.validateBindScope_iff

end

/-- A query is accepted exactly if no assignment that is looked at has a variable that is
    collected. -/
theorem Query.validateScope_iff (q : Query) :
    q.validateScope = .ok () ↔ ∀ a ∈ q.checked, a.2 ∉ a.1.collectPatternVars := by
  refine validate_parts q.validateBindScope_iff ?_
  rw [Query.validateProjection]
  split
  · rw [forall_mem_map]
    split
    · rename_i v hfind
      obtain ⟨pe, hpe, rfl⟩ := mem_map.mp (mem_of_find?_eq_some hfind)
      have hmem := find?_some hfind
      exact ⟨nofun, fun h => absurd (of_decide_eq_true hmem) (h pe hpe)⟩
    · rename_i hfind
      refine ⟨fun _ pe hpe hmem => ?_, fun _ => rfl⟩
      exact find?_eq_none.mp hfind _ (mem_map_of_mem hpe) (decide_eq_true hmem)
  · simp

/-- The first half: the two collections have the same variables exactly if everything
    hidden stands in plain view elsewhere. The second: a query that is accepted rebinds nothing
    exactly if the assignments and variables left out are harmless. -/
theorem scope_checks_iff (p : Pattern) (q : Query)
    (tail : Option (List String × List (List (Option Term)))) :
    ((∀ v, v ∈ p.collectPatternVars ↔ v ∈ p.inScopeVars) ↔ ∀ v, p.Hides v → p.Shows v) ∧
    (q.validateScope = .ok () →
      ((q.withValues tail).NoRebind ↔ (q.withValues tail).Covered q.checked)) := by
  have hcollect : ∀ (p : Pattern) v, v ∈ p.collectPatternVars ↔ p.Shows v := fun p v =>
    (p.mem_collectVarsInto []).trans (or_iff_right not_mem_nil)
  constructor
  · refine forall_congr' fun v => ?_
    rw [hcollect, p.mem_inScopeVars_iff]
    exact ⟨fun h hv => h.mpr (.inr hv), fun h => ⟨.inl, fun hv => hv.elim id h⟩⟩
  · intro hok
    rw [q.validateScope_iff] at hok
    refine forall₂_congr fun a _ => ?_
    rw [a.1.mem_inScopeVars_iff, not_or, and_comm]
    refine and_congr_right fun _ => ⟨fun h _ => h, fun h => ?_⟩
    by_cases ha : a ∈ q.checked
    · exact fun hshow => hok a ha ((hcollect a.1 a.2).mpr hshow)
    · exact h ha

/-- `SELECT * { VALUES ?x { } BIND(?y AS ?x) }`. -/
def rebindingQuery : Query :=
  .mk ⟨.select, false, none, -1, 0, []⟩ (.bind (.values ["x"] []) (.var "y") "x") [] [] none []

/-- A variable of `VALUES` is assigned again in a query that is accepted. -/
theorem values_rebound : rebindingQuery.validateScope = .ok () ∧ ¬ rebindingQuery.NoRebind :=
  ⟨rfl, fun h => h _ (.pattern (.here rfl)) (mem_cons_self)⟩

end GoRdf
