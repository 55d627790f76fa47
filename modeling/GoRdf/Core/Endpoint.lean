import GoRdf.Core.Iri
import GoRdf.Core.Update

/-!
# The query and update handlers

`exchange.query` after a query has been parsed and its dataset chosen: the row
limit goes into the query as one `LIMIT` more than is allowed, the query is
evaluated, and what came out is counted and sent.

`CONSTRUCT` is evaluated here. Its solutions are those of a `SELECT` with the
same modifiers, and each fills in the template with blank nodes of its own.

`exchange.update` up to the evaluation, which is that of `EvalUpdateContext`: what the
parser makes of `WITH`, and what the graphs named beside the request do to it.

## Main definitions

* `ParsedQuery`: `ParsedQuery`, of a `SELECT`, an `ASK` or a `CONSTRUCT`.
* `evalConstruct`, `evalConstructQuery`: `evalConstruct`, and the `CONSTRUCT` case
  of `evalQuery`.
* `Handler`, `Handler.query`: The handler, and `exchange.query`.
* `WrittenOperation`, `prepareUpdate`, `exchangeUpdate`: An operation before it is
  parsed, and `exchange.update`.
-/

namespace GoRdf

/-- `ParsedQuery.Type`, and the template of a `CONSTRUCT`, which is empty in the short
    form. -/
inductive QueryForm
  | select
  | ask
  | construct (template : List PatternTriple)

/-- The query is an `ASK`. -/
def QueryForm.isAsk : QueryForm → Bool
  | .ask => true
  | _ => false

/-- `ParsedQuery`. The parser reads `LIMIT` and `OFFSET` from digits. -/
structure ParsedQuery where
  form : QueryForm
  distinct : Bool
  vars : Option (List String)
  pattern : Pattern
  projectExprs : List ProjectExpr
  groupBy : List Expr
  groupByAliases : List String
  having : Option Expr
  orderBy : List OrderExpr
  limit : Option Nat
  offset : Nat

/-- What `evalQuery` reads. A `CONSTRUCT` is a `SELECT` up to its solutions. -/
def ParsedQuery.toQuery (q : ParsedQuery) : Query :=
  .mk ⟨if q.form.isAsk then .ask else .select, q.distinct, q.vars,
    q.limit.elim (-1) fun n => n, q.offset, q.groupByAliases⟩
    q.pattern q.projectExprs q.groupBy q.having q.orderBy

/-! ## `CONSTRUCT` -/

/-- `extractTemplateFromPattern`. -/
def extractTemplateFromPattern : Pattern → List PatternTriple
  | .bgp tps => tps
  | .join l r => extractTemplateFromPattern l ++ extractTemplateFromPattern r
  | _ => []

/-- `Graph.Add` on the graph that is built. -/
def addTriple (ts : List Triple) (t : Triple) : List Triple :=
  if t ∈ ts then ts else ts ++ [t]

/-- The triples of the template under one solution. -/
def solutionTriples (pl : Prologue) (template : List PatternTriple) (s : Row × Scope) :
    List Triple :=
  template.filterMap (templateTriple pl s.1 s.2)

/-- `evalConstruct`. -/
def evalConstruct (pl : Prologue) (template : List PatternTriple)
    (solutions : List (Row × Scope)) : List Triple :=
  solutions.foldl (fun ts s => (solutionTriples pl template s).foldl addTriple ts) []

/-- The template of a `CONSTRUCT`. -/
def constructTemplate (q : ParsedQuery) (template : List PatternTriple) : List PatternTriple :=
  if template.isEmpty then extractTemplateFromPattern q.pattern else template

/-- The `CONSTRUCT` case of `evalQuery`. -/
def evalConstructQuery (env : Env) (ctx : EvalCtx) (g : Graph) (fresh : Nat → Scope)
    (q : ParsedQuery) (template : List PatternTriple) : List Triple :=
  let solutions := evalPatternUpTo env ctx g q.pattern (pushdownLimit q.toQuery)
  let solutions :=
    if q.orderBy.isEmpty then solutions
    else env.scalars.sortFunc (fun a b => compareRows env ctx g q.orderBy a b) solutions
  let solutions := sliceRows q.toQuery.modifiers.offset q.toQuery.modifiers.limit solutions
  evalConstruct env.prologue (constructTemplate q template) (withScopes fresh solutions)

/-! ## The handler -/

/-- What is sent. The text of the error follows its status. -/
inductive Answer
  | error (status : Nat) (message : String)
  | rows (vars : List String) (bindings : List Row)
  | boolean (answer : Bool)
  | graph (triples : List Triple)

/-- `tooManyRows`. -/
def tooManyRows (limit : Nat) (what : String) : Answer :=
  .error 422 ("endpoint: result exceeds the row limit: the result has more than " ++
    toString limit ++ " " ++ what ++
    "; add a LIMIT or narrow the query (the limit is set with WithMaxResultRows)")

/-- What a request is answered from: the dataset, as its default graph and the named
    graphs of `env`, a scope for each solution, and `maxResultRows`, which is zero
    without the option. -/
structure Handler where
  env : Env
  default : Graph
  fresh : Nat → Scope
  maxRows : Nat

/-- The query that is evaluated: one more row than allowed tells a result that is over
    the limit from one that is at the limit. -/
def ParsedQuery.bounded (q : ParsedQuery) (maxRows : Nat) : ParsedQuery :=
  if 0 < maxRows ∧ q.form.isAsk = false ∧ ∀ n ∈ q.limit, maxRows < n then
    { q with limit := some (maxRows + 1) }
  else q

/-- The evaluation of a request starts without bindings. -/
def requestCtx : EvalCtx :=
  ⟨∅, false⟩

/-- `exchange.query`, from the bound on the query to what is sent. -/
def Handler.query (h : Handler) (q : ParsedQuery) : Answer :=
  let q := q.bounded h.maxRows
  match q.form with
  | .construct template =>
    let triples := evalConstructQuery h.env requestCtx h.default h.fresh q template
    if 0 < h.maxRows ∧ h.maxRows < triples.length then tooManyRows h.maxRows "triples"
    else .graph triples
  | _ =>
    match evalQuery h.env requestCtx h.default q.toQuery ∅ with
    | .ask answer => .boolean answer
    | .select vars bindings =>
      if 0 < h.maxRows ∧ h.maxRows < bindings.length then tooManyRows h.maxRows "solutions"
      else .rows vars bindings

/-! ## Updates -/

/-- An operation as it is written, with its `WITH` clause in front. -/
structure WrittenOperation where
  target : Option URIRef
  op : UpdateOperation

/-- `parseDeleteWhereWith`: the graph goes into the quads. -/
def parseDeleteWhereWith (graph : URIRef) (quads : List QuadPattern) : UpdateOperation :=
  .deleteWhere (quads.map fun qp => if qp.graph = noName then { qp with graph := graph } else qp)

/-- What the parser keeps of an operation. -/
def WrittenOperation.parse (w : WrittenOperation) : UpdateOperation :=
  match w.op, w.target with
  | .modify m, target => .modify { m with target := target.getD noName }
  | .deleteWhere quads, some graph => parseDeleteWhereWith graph quads
  | op, _ => op

/-- An update, with the graphs of `using-graph-uri` and `using-named-graph-uri`. -/
structure UpdateRequest where
  operations : List WrittenOperation
  defaultGraphs : List URIRef
  namedGraphs : List URIRef

/-- The clauses that the parameters stand for. -/
def UpdateRequest.usings (req : UpdateRequest) : List UsingClause :=
  req.defaultGraphs.map (⟨·, false⟩) ++ req.namedGraphs.map (⟨·, true⟩)

/-- Why a request is refused: a graph is not named by an absolute IRI or the parameters
    meet `USING` or `WITH`, with status 400, or `ErrLoadDisabled`, with status 403. -/
inductive UpdateRefusal
  | notAGraph (op : GraphMgmtKind) (ref : URIRef)
  | usingCombined
  | loadDisabled

/-- The graphs that `checkGraphRefs` looks at. -/
def UpdateOperation.graphRefs : UpdateOperation → List (GraphMgmtKind × URIRef)
  | .graphMgmt g =>
    ([g.target, g.into] ++ if g.op = .load then [] else [g.source]).map (Prod.mk g.op)
  | _ => []

/-- `checkGraphRefs`. An IRI has the characters that `validIRIChars` asks for. -/
def checkGraphRefs (ops : List UpdateOperation) : Except UpdateRefusal Unit :=
  match (ops.flatMap UpdateOperation.graphRefs).find? fun r =>
    decide (r.2.value ∉ ["", "DEFAULT", "NAMED", "ALL"]) &&
      !Iri.isAbsolute r.2.value.toList with
  | some (op, ref) => .error (.notAGraph op ref)
  | none => .ok ()

/-- The parameters must not meet such an operation. -/
def UpdateOperation.hasDataset : UpdateOperation → Bool
  | .modify m => decide (m.target ≠ noName) || !m.usings.isEmpty
  | _ => false

/-- The parameters go into an operation. -/
def UpdateOperation.setUsing (usings : List UsingClause) : UpdateOperation → UpdateOperation
  | .modify m => .modify { m with usings := usings }
  | op => op

/-- A `LOAD` that must not fail silently. -/
def UpdateOperation.isLoad : UpdateOperation → Bool
  | .graphMgmt g => decide (g.op = .load) && !g.silent
  | _ => false

/-- The operations that are run, or why the request is refused. -/
def prepareUpdate (hasLoader : Bool) (req : UpdateRequest) :
    Except UpdateRefusal (List UpdateOperation) := do
  let ops := req.operations.map WrittenOperation.parse
  checkGraphRefs ops
  let ops ←
    if req.usings.isEmpty then .ok ops
    else if ops.any UpdateOperation.hasDataset then .error .usingCombined
    else .ok (ops.map (UpdateOperation.setUsing req.usings))
  if !hasLoader && ops.any UpdateOperation.isLoad then .error .loadDisabled else .ok ops

/-- `exchange.update`. -/
def exchangeUpdate {G : Type} (B : Backend G) (env : Env) (ctx : Context)
    (loader : Option (Loader G)) (fresh : Nat → Nat → Scope)
    (req : UpdateRequest) (ds : Dataset G) :
    Dataset G × Except UpdateRefusal (Option UpdateError) :=
  match prepareUpdate loader.isSome req with
  | .error e => (ds, .error e)
  | .ok ops =>
    let run := evalUpdateContext B env ctx loader fresh ops ds
    (run.1, .ok run.2)

end GoRdf
