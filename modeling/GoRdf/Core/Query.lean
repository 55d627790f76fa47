import Mathlib.Data.Finset.Sort
import Mathlib.Data.String.Basic
import GoRdf.Core.Plan

/-!
# Queries

The syntax of patterns, expressions and queries, as the parser leaves it.

Expressions hold patterns (`EXISTS`), patterns hold expressions and queries
(a sub-`SELECT`), and queries hold both, so the three are one mutual inductive
type.

`CONSTRUCT` is not a query type here. Its solutions are those of a `SELECT`, and
what is built from them belongs to the query handler.

## Main definitions

* `Expr`, `Pattern`, `Query`: The syntax.
* `Pattern.inScopeVars`: `addInScopeVars`.
* `hasAggregates`: `hasAggregates`.
* `extractSimpleBGP`, `buildStorePattern`, `countsPatternRows`: What a store can
  be asked for a query of one triple pattern.
-/

namespace GoRdf

/-- The operators of `BinaryExpr`. -/
inductive BinaryOp
  | eq | ne | lt | gt | le | ge | and | or | add | sub | mul | div
deriving DecidableEq

/-- The operators of `UnaryExpr`. -/
inductive UnaryOp
  | not | neg
deriving DecidableEq

/-- `isAggregateFuncName`. -/
inductive Aggregate
  | count | sum | avg | min | max | groupConcat | sample
deriving DecidableEq

/-- The function of a call: a functional form, an aggregate, or a name that is
    looked up. -/
inductive FuncName
  | bound | cond | coalesce
  | aggregate (a : Aggregate)
  | builtin (name : String)
deriving DecidableEq

/-- `FuncExpr` without its arguments. `iri` is the name of a call written as an
    IRI, which an extension function may be registered for. -/
structure Func where
  name : FuncName
  distinct : Bool
  star : Bool
  separator : String
  iri : String
deriving DecidableEq

/-- What the query asks for: `ParsedQuery.Type`. -/
inductive QueryType
  | select | ask
deriving DecidableEq

/-- The modifiers of a query. A negative `limit` is no limit, `vars` are the
    `Variables`, absent for `SELECT *`, and an alias is empty where there is none. -/
structure Modifiers where
  type : QueryType
  distinct : Bool
  vars : Option (List String)
  limit : Int
  offset : Int
  groupByAliases : List String

mutual

/-- `Expr`. A constant is a `LiteralExpr`; an IRI may still be relative. -/
inductive Expr
  | var (name : String)
  | const (t : Term)
  | iri (u : URIRef)
  | binary (op : BinaryOp) (left right : Expr)
  | unary (op : UnaryOp) (arg : Expr)
  | func (f : Func) (args : List Expr)
  | exist (pattern : Pattern) (negated : Bool)

/-- `Pattern`. -/
inductive Pattern
  | bgp (triples : List PatternTriple)
  | join (left right : Pattern)
  | optional (main opt : Pattern)
  | union (left right : Pattern)
  | filter (pattern : Pattern) (expr : Expr)
  | bind (pattern : Pattern) (expr : Expr) (var : String)
  | values (vars : List String) (rows : List (List (Option Term)))
  | graph (name : PatternTerm) (pattern : Pattern)
  | minus (left right : Pattern)
  | subquery (query : Query)

/-- `ParsedQuery`. -/
inductive Query
  | mk (modifiers : Modifiers) (pattern : Pattern) (projectExprs : List ProjectExpr)
    (groupBy : List Expr) (having : Option Expr) (orderBy : List OrderExpr)

/-- `ProjectExpr`: `(expr AS ?var)`. -/
inductive ProjectExpr
  | mk (expr : Expr) (var : String)

/-- `OrderExpr`. -/
inductive OrderExpr
  | mk (expr : Expr) (desc : Bool)

end

namespace Query

/-- The modifiers of a query. -/
def modifiers : Query → Modifiers
  | .mk m _ _ _ _ _ => m

/-- `Where`. -/
def pattern : Query → Pattern
  | .mk _ p _ _ _ _ => p

/-- `ProjectExprs`. -/
def projectExprs : Query → List ProjectExpr
  | .mk _ _ ps _ _ _ => ps

/-- `GroupBy`. -/
def groupBy : Query → List Expr
  | .mk _ _ _ es _ _ => es

/-- `Having`. -/
def having : Query → Option Expr
  | .mk _ _ _ _ e _ => e

/-- `OrderBy`. -/
def orderBy : Query → List OrderExpr
  | .mk _ _ _ _ _ os => os

end Query

/-- The variable a projection expression assigns. -/
def ProjectExpr.var : ProjectExpr → String
  | .mk _ v => v

/-- The expression of a projection. -/
def ProjectExpr.expr : ProjectExpr → Expr
  | .mk e _ => e

/-! ## Aggregates -/

mutual

/-- `containsAggregate`. It does not look into `EXISTS`. -/
def Expr.containsAggregate : Expr → Bool
  | .func f args =>
    match f.name with
    | .aggregate _ => true
    | _ => argsContainAggregate args
  | .binary _ l r => l.containsAggregate || r.containsAggregate
  | .unary _ a => a.containsAggregate
  | .var _ => false
  | .const _ => false
  | .iri _ => false
  | .exist _ _ => false

/-- Some argument does. -/
def argsContainAggregate : List Expr → Bool
  | [] => false
  | e :: es => e.containsAggregate || argsContainAggregate es

end

/-- `hasAggregates`. -/
def hasAggregates (q : Query) : Bool :=
  q.projectExprs.any fun pe => pe.expr.containsAggregate

/-! ## Variables in scope -/

/-- `orderedVars.add`. -/
def addVar (vars : List String) (v : String) : List String :=
  if v ∈ vars then vars else vars ++ [v]

/-- `addTermVars`. -/
def PatternTerm.addVars : PatternTerm → List String → List String
  | .var v, vars => addVar vars v
  | .const _, vars => vars
  | .name _ _, vars => vars
  | .triple s p o, vars => o.addVars (p.addVars (s.addVars vars))

/-- `addInScopeVars` for a triple pattern. A path has no variable. -/
def PatternTriple.addVars : PatternTriple → List String → List String
  | ⟨s, .term p, o⟩, vars => o.addVars (p.addVars (s.addVars vars))
  | ⟨s, .path _, o⟩, vars => o.addVars (s.addVars vars)

mutual

/-- `addInScopeVars`. -/
def Pattern.addInScopeVars : Pattern → List String → List String
  | .bgp tps, vars => tps.foldl (fun vars tp => tp.addVars vars) vars
  | .join l r, vars => r.addInScopeVars (l.addInScopeVars vars)
  | .optional m o, vars => o.addInScopeVars (m.addInScopeVars vars)
  | .union l r, vars => r.addInScopeVars (l.addInScopeVars vars)
  | .minus l _, vars => l.addInScopeVars vars
  | .filter p _, vars => p.addInScopeVars vars
  | .bind p _ v, vars => addVar (p.addInScopeVars vars) v
  | .values vs _, vars => vs.foldl addVar vars
  | .graph name p, vars => p.addInScopeVars (name.addVars vars)
  | .subquery q, vars => q.addInScopeVars vars

/-- `addInScopeVars` for a sub-`SELECT`. -/
def Query.addInScopeVars : Query → List String → List String
  | .mk m p projs _ _ _, vars =>
    match m.vars with
    | none => p.addInScopeVars vars
    | some vs => (projs.map ProjectExpr.var).foldl addVar (vs.foldl addVar vars)

end

/-- The variables in scope in a pattern, in the order they appear. -/
def Pattern.inScopeVars (p : Pattern) : List String :=
  p.addInScopeVars []

/-- `isInternalVar`: a variable the parser has made up. -/
def isInternalVar (v : String) : Bool :=
  v.toList.head? == some '.'

/-- `sort.Strings`. -/
def sortStrings (texts : Multiset String) : List String :=
  texts.sort (· ≤ ·)

/-- `selectStarVars`: the variables in scope, and then, sorted, the others that a
    solution carries. -/
def selectStarVars (p : Pattern) (solutions : List Row) : List String :=
  let carried := solutions.foldl (fun vs row => vs ∪ row.keys) ∅
  (p.inScopeVars ++ sortStrings (carried.filter fun v => v ∉ p.inScopeVars).val).filter
    fun v => !isInternalVar v

/-! ## Checks of the parser -/

/-- `collectVarsInto` for a position of a triple pattern. -/
def PatternTerm.collectVars : PatternTerm → List String → List String
  | .var v, vars => addVar vars v
  | .const _, vars => vars
  | .name _ _, vars => vars
  | .triple _ _ _, vars => vars

/-- `collectVarsInto` for a triple pattern. -/
def PatternTriple.collectVars : PatternTriple → List String → List String
  | ⟨s, .term p, o⟩, vars => o.collectVars (p.collectVars (s.collectVars vars))
  | ⟨s, .path _, o⟩, vars => o.collectVars (s.collectVars vars)

/-- `collectVarsInto`. -/
def Pattern.collectVarsInto : Pattern → List String → List String
  | .bgp tps, vars => tps.foldl (fun vars tp => tp.collectVars vars) vars
  | .join l r, vars => r.collectVarsInto (l.collectVarsInto vars)
  | .optional m o, vars => o.collectVarsInto (m.collectVarsInto vars)
  | .union l r, vars => r.collectVarsInto (l.collectVarsInto vars)
  | .filter p _, vars => p.collectVarsInto vars
  | .bind p _ v, vars => addVar (p.collectVarsInto vars) v
  | .values _ _, vars => vars
  | .graph _ _, vars => vars
  | .minus _ _, vars => vars
  | .subquery q, vars => (q.modifiers.vars.getD []).foldl addVar vars

/-- `collectPatternVars`. -/
def Pattern.collectPatternVars (p : Pattern) : List String :=
  p.collectVarsInto []

mutual

/-- `validateBindScope`. -/
def Pattern.validateBindScope : Pattern → Except String Unit
  | .bind p _ v =>
    if v ∈ p.collectPatternVars then
      .error ("sparql parse error: BIND variable ?" ++ v ++ " already in scope")
    else p.validateBindScope
  | .join l r => do l.validateBindScope; r.validateBindScope
  | .optional m o => do m.validateBindScope; o.validateBindScope
  | .union l r => do l.validateBindScope; r.validateBindScope
  | .filter p _ => p.validateBindScope
  | .minus l r => do l.validateBindScope; r.validateBindScope
  | .subquery q => q.validateBindScope
  | .bgp _ => .ok ()
  | .values _ _ => .ok ()
  | .graph _ _ => .ok ()

/-- `validateBindScope` for the `WHERE` clause of a query. -/
def Query.validateBindScope : Query → Except String Unit
  | .mk _ p _ _ _ _ => p.validateBindScope

end

/-- `validate`: no projection expression assigns a variable of the pattern. -/
def Query.validateProjection (q : Query) : Except String Unit :=
  if q.modifiers.type = .select then
    match (q.projectExprs.map ProjectExpr.var).find? (· ∈ q.pattern.collectPatternVars) with
    | some v => .error ("sparql parse error: variable ?" ++ v ++ " already defined in inner scope")
    | none => .ok ()
  else .ok ()

/-- The checks that `parse` makes of assigned variables. It does not make the second one in a
    sub-`SELECT`. -/
def Query.validateScope (q : Query) : Except String Unit := do
  q.validateBindScope
  q.validateProjection

/-- What `parse` does with a `VALUES` clause after the query, once the checks are made. -/
def Query.withValues : Option (List String × List (List (Option Term))) → Query → Query
  | none, q => q
  | some (vs, rows), .mk m p ps gs hs os => .mk m (.join p (.values vs rows)) ps gs hs os

/-! ## One triple pattern -/

/-- `extractSimpleBGP`: the pattern is a single triple pattern that a store can
    match, and its positions. -/
def extractSimpleBGP : Pattern → Option (PatternTerm × PatternTerm × PatternTerm)
  | .bgp [⟨s, .term p, o⟩] =>
    if s.isVarTripleTerm || o.isVarTripleTerm then none else some (s, p, o)
  | _ => none

/-- `buildStorePattern`: a term that cannot stand where it is becomes a wildcard. -/
def buildStorePattern (pl : Prologue) (s p o : PatternTerm) : TriplePattern :=
  ⟨(resolvePatternTerm pl ∅ s).bind TermOf.asSubject,
    (resolvePatternTerm pl ∅ p).bind TermOf.asURIRef, resolvePatternTerm pl ∅ o⟩

/-- `countsPatternRows`: the call counts the matches of the triple pattern. -/
def countsPatternRows (f : Func) (args : List Expr) (s p o : PatternTerm) : Bool :=
  f.star ||
    match args with
    | [.var v] => s == .var v || p == .var v || o == .var v
    | _ => false

end GoRdf
