import GoRdf.Core.Query

/-!
# Query Evaluation

The evaluator: `evalPattern` and the other functions of package `sparql` that
call each other, one definition for each.

What a single operator or built-in function computes from its arguments is a
parameter, `Scalars`. So is `slices.SortFunc`, which is known to permute. Named
graphs come in the order in which the loop over their map happens to run.

A missing term is an error or an unbound variable, as `nil` is in the source.
Cancellation, budgets and store errors are left out.

## Main definitions

* `Env`, `EvalCtx`: What stays the same during an evaluation, and `evalCtx`.
* `evalExpr`: `evalExprWithGraph`.
* `evalPattern`: `evalPattern`, with `evalGraphPattern`.
* `evalPatternWithBindings`, `evalPatternPreBound`, `optionalMatches`.
* `eachSolution`, `evalPatternUpTo`: The streaming evaluator.
* `evalQuery`: `evalQuery`, with `evalSelect` and `evalAggregation`.
-/

namespace GoRdf

open Lib

/-! ## Parameters -/

/-- What operators, functions and sorting do. -/
structure Scalars where
  /-- `rdfTermEqual`, of two values. -/
  termEqual : Term → Term → Option Bool
  /-- `valueCompare`, of two values. -/
  valueCompare : Term → Term → Option Int
  /-- The negative of a number. -/
  negate : Term → Option Term
  /-- The function registered for the IRI of a call, or bound to it. -/
  extension : Func → Option (List (Option Term) → Option Term)
  /-- The built-in functions and casts, on arguments that all have a value. -/
  builtin : String → List Term → Option Term
  /-- `ebv`. -/
  ebv : Term → Option Bool
  /-- `compareTermValues`. -/
  compareTermValues : Option Term → Option Term → Int
  /-- `isNumericTerm`. -/
  isNumericTerm : Term → Bool
  /-- `arithmetic`, of two values. -/
  arithmetic : BinaryOp → Term → Term → Option Term
  /-- `slices.SortFunc`, which need not be stable. -/
  sortFunc : (Row → Row → Int) → List Row → List Row
  sortFunc_perm : ∀ cmp rows, (sortFunc cmp rows).Perm rows

/-- What stays the same during an evaluation. -/
structure Env where
  prologue : Prologue
  costs : Costs
  scalars : Scalars
  /-- An IRI resolved against the base, if there is one and the IRI is relative. -/
  resolveIRI : URIRef → URIRef
  namedGraphs : List (URIRef × Graph)
  nodup : (namedGraphs.map Prod.fst).Nodup

/-- `evalCtx`: the initial bindings in sight, and whether they are substituted
    into every scope. -/
structure EvalCtx where
  pre : Row
  substitute : Bool

/-- `effectiveBooleanValue`: an error is false. -/
def Scalars.effectiveBooleanValue (sc : Scalars) (t : Option Term) : Bool :=
  t.bind sc.ebv == some true

/-! ## Literals -/

/-- `NewLiteral` of a string with a datatype. -/
def typedLiteral (lexical : String) (datatype : URIRef) (named : datatype.value ≠ "") : Term :=
  .literal ⟨lexical, .typed datatype fun _ => named⟩

/-- `NewLiteral` of a `bool`. -/
def boolLiteral (b : Bool) : Term :=
  typedLiteral (if b then "true" else "false") ⟨xsdBoolean, by decide⟩ (by decide)

/-- `NewLiteral` of an integer. -/
def integerLiteral (n : Nat) : Term :=
  typedLiteral (toString n) ⟨xsdInteger, by decide⟩ (by decide)

/-- `NewLiteral` of a string. -/
def stringLiteral (s : String) : Term :=
  typedLiteral s ⟨xsdString, by decide⟩ (by decide)

/-! ## Operators -/

namespace Scalars

variable (sc : Scalars)

/-- `cmpUnordered`, for a NaN. -/
def cmpUnordered : Int := 2

/-- `logicalOp`: an error on one side is masked if the other side decides. -/
def logicalOp (op : BinaryOp) (left right : Option Term) : Option Term :=
  let l := left.bind sc.ebv
  let r := right.bind sc.ebv
  -- what one side decides the result with
  let decisive := op == .or
  if l = some decisive ∨ r = some decisive then some (boolLiteral decisive)
  else if l.isSome ∧ r.isSome then some (boolLiteral !decisive)
  else none

/-- `evalBinaryOp`. An error on either side is one of the result, but for `&&` and `||`. -/
def binaryOp (op : BinaryOp) (left right : Option Term) : Option Term :=
  let strict (f : Term → Term → Option Term) := left.bind fun l => right.bind fun r => f l r
  let compare (holds : Int → Bool) := strict fun l r => (sc.valueCompare l r).map fun c =>
    boolLiteral (c ≠ cmpUnordered && holds c)
  match op with
  | .eq => strict fun l r => (sc.termEqual l r).map boolLiteral
  | .ne => strict fun l r => (sc.termEqual l r).map fun eq => boolLiteral !eq
  | .lt => compare (· < 0)
  | .gt => compare (0 < ·)
  | .le => compare (· ≤ 0)
  | .ge => compare (0 ≤ ·)
  | .and | .or => sc.logicalOp op left right
  | .add | .sub | .mul | .div => strict (sc.arithmetic op)

/-- `evalUnaryOp`. -/
def unaryOp (op : UnaryOp) (arg : Option Term) : Option Term :=
  match op with
  | .not => (arg.bind sc.ebv).map fun v => boolLiteral !v
  | .neg => arg.bind sc.negate

end Scalars

mutual

/-- `String` of a subject. -/
def SubjectOf.string : Subject → String
  | .uri u => u.value
  | .bnode b => b.value
  | .triple s p o => "<<( " ++ s.string ++ " " ++ p.value ++ " " ++ o.string ++ " )>>"

/-- `String`. -/
def TermOf.string : Term → String
  | .subject s => s.string
  | .literal l => l.lexical

end

/-! ## Helpers -/

/-- The assertion that a pattern is a basic graph pattern. -/
def Pattern.asBGP : Pattern → Option (List PatternTriple)
  | .bgp tps => some tps
  | _ => none

/-- An assignment that an error leaves undone. -/
def assign (row : Row) (v : String) : Option Term → Row
  | some x => row.insert v x
  | none => row

/-- One row of `VALUES`. A cell may be missing or `UNDEF`. -/
def valuesRow (env : Env) (vars : List String) (cells : List (Option Term)) : Row :=
  (vars.zip cells).foldl
    (fun row vc => assign row vc.1 (vc.2.map fun t =>
      match t.asURIRef with
      | some u => (env.resolveIRI u).toTerm
      | none => t)) ∅

/-- `minusCompatible`: the rows share a variable, and agree on all they share. -/
def minusCompatible (a b : Row) : Bool :=
  decide (∃ v ∈ a.keys, v ∈ b) && isCompatible a b

/-- `namedGraphs[iri]`. -/
def Env.findGraph (env : Env) (iri : String) : Option Graph :=
  (env.namedGraphs.find? fun ng => ng.1.value == iri).map Prod.snd

/-- `projectedBindings`. -/
def projectedBindings (q : Query) (pre : Row) : Row :=
  if q.modifiers.vars.isNone && q.projectExprs.isEmpty then projectRow q.pattern.inScopeVars pre
  else projectRow (q.modifiers.vars.getD []) pre

/-- `subqueryPre`. -/
def EvalCtx.subqueryPre (ctx : EvalCtx) (q : Query) : Row :=
  if ctx.substitute then ctx.pre else projectedBindings q ctx.pre

/-- The function `evalExtensionFunc` calls. A call that is not written as an IRI has none. -/
def Scalars.extensionFunc (sc : Scalars) (f : Func) : Option (List (Option Term) → Option Term) :=
  if f.iri = "" then none else sc.extension f

/-- `evalFuncWithGraph`, after `evalExtensionFunc`, on the values of the
    arguments. -/
def callFunc (env : Env) (ctx : EvalCtx) (row : Row) (f : Func) (args : List Expr)
    (vals : List (Option Term)) : Option Term :=
  match env.scalars.extensionFunc f with
  | some fn => fn vals
  | none =>
    match f.name with
    | .bound =>
      match args with
      | [.var v] => some (boolLiteral (decide (v ∈ row) || decide (v ∈ ctx.pre)))
      | _ => none
    | .cond =>
      match vals with
      | [c, x, y] => (c.bind env.scalars.ebv).bind fun b => if b then x else y
      | _ => none
    | .coalesce => vals.reduceOption.head?
    -- An aggregate is not among the functions that are looked up.
    | .aggregate _ => none
    | .builtin name =>
      if vals.all Option.isSome then env.scalars.builtin name vals.reduceOption else none

/-! ## Grouping -/

/-- `solutionKey`. -/
def solutionKey (vars : Option (List String)) (row : Row) : String :=
  let part (v : String) (x : Term) : String := v ++ "=" ++ String.ofList x.n3
  let parts :=
    match vars with
    | none => sortStrings (row.entries.map fun e => part e.1 e.2)
    | some vs => vs.filterMap fun v => (row.lookup v).map (part v)
  "|".intercalate parts

/-- The elements whose key has not been seen before. -/
def uniqueBy {α : Type} (key : α → String) (xs : List α) : List α :=
  (xs.foldl
    (fun acc x => if acc.1.contains (key x) then acc else (key x :: acc.1, acc.2 ++ [x]))
    (([], []) : List String × List α)).2

/-- A group under construction: its key, the bindings of the key, its members. -/
structure Group where
  key : String
  keyBinds : Row
  members : List Row

/-- A solution joins the group of its key, or opens it. -/
def addToGroup (key : String) (keyBinds row : Row) : List Group → List Group
  | [] => [⟨key, keyBinds, [row]⟩]
  | grp :: grps =>
    if grp.key = key then { grp with members := grp.members ++ [row] } :: grps
    else grp :: addToGroup key keyBinds row grps

/-- What `evalAggregateWithGraph` makes of the values of its argument. -/
def aggregateValue (sc : Scalars) (f : Func) (a : Aggregate) (vals : List Term)
    (group : List Row) : Option Term :=
  if a = .count ∧ f.distinct ∧ f.star then
    some (integerLiteral (uniqueBy (solutionKey none) group).length)
  else
    let vals := if f.distinct then uniqueBy (fun t => String.ofList t.n3) vals else vals
    let hasError := !f.star && !vals.all sc.isNumericTerm
    let sum := vals.foldlM (fun sum v => sc.arithmetic .add sum v) (integerLiteral 0)
    match a with
    | .count => some (integerLiteral vals.length)
    | .sum => if hasError then none else sum
    | .avg =>
      if hasError then none
      else if vals.isEmpty then sum
      else sum.bind fun sum => sc.arithmetic .div sum (integerLiteral vals.length)
    | .min =>
      vals.head?.map fun m =>
        vals.tail.foldl (fun m v => if sc.compareTermValues (some v) (some m) < 0 then v else m) m
    | .max =>
      vals.head?.map fun m =>
        vals.tail.foldl (fun m v => if 0 < sc.compareTermValues (some v) (some m) then v else m) m
    | .groupConcat => some (stringLiteral (f.separator.intercalate (vals.map TermOf.string)))
    | .sample => vals.head?

/-! ## Cutting the sequence of solutions -/

/-- `pushdownLimit`. -/
def pushdownLimit (q : Query) : Int :=
  match q.modifiers.type with
  | .ask => 1
  | .select =>
    if q.modifiers.limit ≤ 0 || !q.orderBy.isEmpty || q.modifiers.distinct ||
      !q.groupBy.isEmpty || hasAggregates q || q.having.isSome then 0
    else q.modifiers.offset + q.modifiers.limit

/-- `OFFSET` and then `LIMIT`, as slices. -/
def sliceRows (offset limit : Int) (rows : List Row) : List Row :=
  let rows := if 0 < offset then rows.drop offset.toNat else rows
  if 0 ≤ limit then rows.take limit.toNat else rows

/-- The row of a triple that a store has paged to: each position assigns its
    variable. -/
def pageRow (s p o : PatternTerm) (t : Triple) : Row :=
  let set (pt : PatternTerm) (x : Term) (row : Row) : Row :=
    match pt with
    | .var v => row.insert v x
    | _ => row
  set o t.object (set p t.predicate.toTerm (set s (.subject t.subject) ∅))

/-- The pushdown of `LIMIT` and `OFFSET`: the page, when the store makes it. -/
def limitPushdown (env : Env) (g : Graph) (q : Query) : Option (List Row) :=
  if (0 ≤ q.modifiers.limit || 0 < q.modifiers.offset) && q.orderBy.isEmpty &&
    !q.modifiers.distinct && q.groupBy.isEmpty && !hasAggregates q && q.projectExprs.isEmpty then do
    let (s, p, o) ← extractSimpleBGP q.pattern
    let qs ← g.queryable
    let page := qs.triplesWithLimit (buildStorePattern env.prologue s p o)
      (if q.modifiers.limit < 0 then 0 else q.modifiers.limit) q.modifiers.offset
    return page.map (pageRow s p o)
  else none

/-- The pushdown of `ASK`. -/
def askPushdown (env : Env) (g : Graph) (q : Query) : Option Bool := do
  let (s, p, o) ← extractSimpleBGP q.pattern
  let qs ← g.queryable
  return qs.hasMatch (buildStorePattern env.prologue s p o)

/-- The pushdown of a single `COUNT`. -/
def countPushdown (env : Env) (ctx : EvalCtx) (g : Graph) (q : Query) : Option Row :=
  match q.groupBy, q.projectExprs with
  | [], [.mk (.func f args) v] =>
    if ctx.pre = ∅ ∧ f.name = .aggregate .count ∧ f.distinct = false then do
      let (s, p, o) ← extractSimpleBGP q.pattern
      if countsPatternRows f args s p o then do
        let qs ← g.queryable
        return (∅ : Row).insert v
          (integerLiteral (qs.count (buildStorePattern env.prologue s p o)))
      else none
    else none
  | _, _ => none

/-! ## The evaluator -/

/-- `Result`. -/
inductive Result
  | select (vars : List String) (bindings : List Row)
  | ask (answer : Bool)

/-- The rows a sub-`SELECT` contributes. -/
def Result.bindings : Result → List Row
  | .select _ rows => rows
  | .ask _ => []

mutual

/-- `evalExprWithGraph`. -/
def evalExpr (env : Env) (ctx : EvalCtx) (g : Graph) (e : Expr) (row : Row) : Option Term :=
  match e with
  | .var v => (row.lookup v).or (ctx.pre.lookup v)
  | .const t => some t
  | .iri u => some (env.resolveIRI u).toTerm
  | .binary op l r =>
    env.scalars.binaryOp op (evalExpr env ctx g l row) (evalExpr env ctx g r row)
  | .unary op a => env.scalars.unaryOp op (evalExpr env ctx g a row)
  | .func f args => callFunc env ctx row f args (evalArgs env ctx g args row)
  | .exist p negated =>
    let found := !(evalPatternPreBound env ctx g p row).isEmpty
    some (boolLiteral (if negated then !found else found))
termination_by (sizeOf e, 0)

/-- The values of the arguments of a call. -/
def evalArgs (env : Env) (ctx : EvalCtx) (g : Graph) (es : List Expr) (row : Row) :
    List (Option Term) :=
  match es with
  | [] => []
  | e :: es => evalExpr env ctx g e row :: evalArgs env ctx g es row
termination_by (sizeOf es, 0)

/-- `evalPattern`, with `evalGraphPattern`. -/
def evalPattern (env : Env) (ctx : EvalCtx) (g : Graph) (p : Pattern) : List Row :=
  match p with
  | .bgp tps => evalBGP env.costs env.prologue g tps ∅
  | .join l r =>
    (evalPattern env ctx g l).flatMap fun lb =>
      (evalPatternWithBindings env ctx g r lb).map (mergeBindings lb)
  | .optional m o =>
    (evalPattern env ctx g m).flatMap fun mb =>
      let opt := optionalMatches env ctx g o mb mb
      if opt.isEmpty then [mb] else opt.map (mergeBindings mb)
  | .union l r => evalPattern env ctx g l ++ evalPattern env ctx g r
  | .filter p e =>
    (evalPattern env ctx g p).filter fun b =>
      env.scalars.effectiveBooleanValue (evalExpr env ctx g e b)
  | .bind p e v => (evalPattern env ctx g p).map fun b => assign b v (evalExpr env ctx g e b)
  | .values vars rows => rows.map (valuesRow env vars)
  | .minus l r =>
    let right := evalPattern env ctx g r
    (evalPattern env ctx g l).filter fun lb => !right.any fun rb => minusCompatible lb rb
  | .graph (.var v) p =>
    env.namedGraphs.flatMap fun ng =>
      (evalPatternWithBindings env ctx ng.2 p ((∅ : Row).insert v ng.1.toTerm)).map fun b =>
        b.insert v ng.1.toTerm
  | .graph name p =>
    match resolvePatternTerm env.prologue ∅ name with
    | none => []
    | some t =>
      match env.findGraph t.string with
      | none => []
      | some ng => evalPattern env ctx ng p
  | .subquery q =>
    let inner := ctx.subqueryPre q
    (evalQuery env { ctx with pre := inner } g q inner).bindings
termination_by (sizeOf p, 0)

/-- `evalPatternWithBindings`. -/
def evalPatternWithBindings (env : Env) (ctx : EvalCtx) (g : Graph) (p : Pattern) (row : Row) :
    List Row :=
  match p.asBGP with
  | some tps => evalBGP env.costs env.prologue g tps row
  | none => (evalPattern env ctx g p).filter (isCompatible row)
termination_by (sizeOf p, 1)

/-- `optionalMatches`: the filters at the top of the group see the left row. -/
def optionalMatches (env : Env) (ctx : EvalCtx) (g : Graph) (opt : Pattern) (mb inner : Row) :
    List Row :=
  match opt with
  | .filter p e =>
    (optionalMatches env ctx g p mb inner).filter fun r =>
      env.scalars.effectiveBooleanValue (evalExpr env ctx g e (mergeBindings mb r))
  | opt => evalPatternWithBindings env ctx g opt inner
termination_by (sizeOf opt, 2)

/-- `evalPatternPreBound`. -/
def evalPatternPreBound (env : Env) (ctx : EvalCtx) (g : Graph) (p : Pattern) (pre : Row) :
    List Row :=
  match p with
  | .bgp tps => evalBGP env.costs env.prologue g tps pre
  | .join l r =>
    (evalPatternPreBound env ctx g l pre).flatMap fun lb =>
      ((evalPatternPreBound env ctx g r pre).filter (isCompatible lb)).map (mergeBindings lb)
  | .optional m o =>
    (evalPatternPreBound env ctx g m pre).flatMap fun mb =>
      let opt := optionalMatches env ctx g o mb (mergeBindings pre mb)
      if opt.isEmpty then [mb] else opt.map (mergeBindings mb)
  | .union l r => evalPatternPreBound env ctx g l pre ++ evalPatternPreBound env ctx g r pre
  | .filter p e =>
    (evalPatternPreBound env ctx g p pre).filter fun b =>
      env.scalars.effectiveBooleanValue (evalExpr env ctx g e (mergeBindings pre b))
  | .bind p e v =>
    (evalPatternPreBound env ctx g p pre).map fun b =>
      assign b v (evalExpr env ctx g e (mergeBindings pre b))
  | .minus l r =>
    let right := evalPattern env ctx g r
    (evalPatternPreBound env ctx g l pre).filter fun lb =>
      !right.any fun rb => minusCompatible lb rb
  | .subquery q =>
    let inner := ctx.subqueryPre q
    if inner = ∅ then evalPatternWithBindings env ctx g (.subquery q) pre
    else (evalQuery env { ctx with pre := inner } g q inner).bindings.filter (isCompatible pre)
  -- `VALUES` and `GRAPH`
  | p => evalPatternWithBindings env ctx g p pre
termination_by (sizeOf p, 2)

/-- `eachSolution`. -/
def eachSolution {σ : Type} (env : Env) (ctx : EvalCtx) (g : Graph) (p : Pattern)
    (yield : Row → σ → Bool × σ) (st : σ) : Bool × σ :=
  match p with
  | .bgp tps =>
    eachBGPSolution env.prologue g (orderBGP env.costs env.prologue g tps ∅) ∅ yield st
  | .join l r =>
    eachSolution env ctx g l
      (fun lb st =>
        match r.asBGP with
        | some tps =>
          eachBGPSolution env.prologue g (orderBGP env.costs env.prologue g tps lb) lb yield st
        | none =>
          forEach (fun rb st => yield (mergeBindings lb rb) st)
            (evalPatternWithBindings env ctx g r lb) st)
      st
  | .optional m o =>
    eachSolution env ctx g m
      (fun mb st =>
        match o.asBGP with
        | some tps =>
          -- The flag says that a match has been passed on.
          let ran := eachBGPSolution env.prologue g
            (orderBGP env.costs env.prologue g tps mb) mb
            (fun b st => let step := yield b st.1; (step.1, step.2, true)) (st, false)
          if !ran.1 then (false, ran.2.1)
          else if ran.2.2 then (true, ran.2.1)
          else yield mb ran.2.1
        | none =>
          let opt := optionalMatches env ctx g o mb mb
          if opt.isEmpty then yield mb st
          else forEach (fun ob st => yield (mergeBindings mb ob) st) opt st)
      st
  | .union l r =>
    let ran := eachSolution env ctx g l yield st
    if ran.1 then eachSolution env ctx g r yield ran.2 else (false, ran.2)
  | .filter p e =>
    eachSolution env ctx g p
      (fun b st =>
        if env.scalars.effectiveBooleanValue (evalExpr env ctx g e b) then yield b st
        else (true, st))
      st
  | p => forEach yield (evalPattern env ctx g p) st
termination_by (sizeOf p, 1)

/-- `evalPatternUpTo`. -/
def evalPatternUpTo (env : Env) (ctx : EvalCtx) (g : Graph) (p : Pattern) (limit : Int) :
    List Row :=
  if limit ≤ 0 then evalPattern env ctx g p
  else (eachSolution env ctx g p (takeInto limit.toNat) []).2
termination_by (sizeOf p, 2)

/-- `evalAggExprWithGraph`, with `evalAggregateWithGraph`. -/
def evalAggExpr (env : Env) (ctx : EvalCtx) (g : Graph) (e : Expr) (group : List Row) :
    Option Term :=
  match e with
  | .func f args =>
    match f.name with
    | .aggregate a =>
      let vals :=
        if f.star then group.map fun _ => integerLiteral 1
        else
          match args with
          | [] => []
          | arg :: _ => group.filterMap fun row => evalExpr env ctx g arg row
      aggregateValue env.scalars f a vals group
    | _ => group.head?.bind fun row => evalExpr env ctx g (.func f args) row
  | .exist p negated => evalExpr env ctx g (.exist p negated) (group.head?.getD ∅)
  | .binary op l r =>
    env.scalars.binaryOp op (evalAggExpr env ctx g l group) (evalAggExpr env ctx g r group)
  | .unary op a => env.scalars.unaryOp op (evalAggExpr env ctx g a group)
  | .var v => group.head?.bind fun row => row.lookup v
  | .const t => some t
  | .iri u => some u.toTerm
termination_by (sizeOf e, 1)

/-- The projection expressions over a group. -/
def aggProject (env : Env) (ctx : EvalCtx) (g : Graph) (projs : List ProjectExpr)
    (group : List Row) (row : Row) : Row :=
  match projs with
  | [] => row
  | .mk e v :: projs =>
    aggProject env ctx g projs group (assign row v (evalAggExpr env ctx g e group))
termination_by (sizeOf projs, 0)

/-- `HAVING`. -/
def keepsGroup (env : Env) (ctx : EvalCtx) (g : Graph) (having : Option Expr)
    (group : List Row) : Bool :=
  match having with
  | none => true
  | some e => env.scalars.effectiveBooleanValue (evalAggExpr env ctx g e group)
termination_by (sizeOf having, 0)

/-- The key of a solution, in parts, and the bindings that come with it. -/
def groupKey (env : Env) (ctx : EvalCtx) (g : Graph) (es : List Expr) (aliases : List String)
    (row keyBinds : Row) : List String × Row :=
  match es with
  | [] => ([], keyBinds)
  | e :: es =>
    let val := evalExpr env ctx g e row
    let keyBinds :=
      match e with
      | .var v => assign keyBinds v val
      | _ => keyBinds
    let keyBinds :=
      match aliases.head? with
      | some a => if a = "" then keyBinds else assign keyBinds a val
      | none => keyBinds
    let rest := groupKey env ctx g es aliases.tail row keyBinds
    ((val.elim "" fun t => String.ofList t.n3) :: rest.1, rest.2)
termination_by (sizeOf es, 0)

/-- `evalAggregation` after its pushdown: the groups of the solutions, and a row for
    each that `HAVING` keeps. -/
def aggregateGroups (env : Env) (ctx : EvalCtx) (g : Graph) (q : Query) (solutions : List Row) :
    List Row :=
  match q with
  | .mk m p projs groupBy having orderBy =>
    let groups := solutions.foldl
      (fun groups s =>
        let key := groupKey env ctx g groupBy m.groupByAliases s ∅
        addToGroup ("|".intercalate key.1) key.2 s groups) []
    let groups :=
      if groups.isEmpty && hasAggregates (.mk m p projs groupBy having orderBy) &&
        groupBy.isEmpty then [⟨"", ∅, []⟩] else groups
    (groups.filter fun grp => keepsGroup env ctx g having grp.members).map fun grp =>
      aggProject env ctx g projs grp.members grp.keyBinds
termination_by (sizeOf q, 0)

/-- `evalAggregation`. -/
def evalAggregation (env : Env) (ctx : EvalCtx) (g : Graph) (q : Query) (solutions : List Row) :
    List Row :=
  match countPushdown env ctx g q with
  | some row => [row]
  | none => aggregateGroups env ctx g q solutions
termination_by (sizeOf q, 1)

/-- The projection expressions over a solution, each seeing the ones before. -/
def projectExprs (env : Env) (ctx : EvalCtx) (g : Graph) (projs : List ProjectExpr) (row : Row) :
    Row :=
  match projs with
  | [] => row
  | .mk e v :: projs => projectExprs env ctx g projs (assign row v (evalExpr env ctx g e row))
termination_by (sizeOf projs, 0)

/-- The comparison of `ORDER BY`. -/
def compareRows (env : Env) (ctx : EvalCtx) (g : Graph) (orderBy : List OrderExpr) (a b : Row) :
    Int :=
  match orderBy with
  | [] => 0
  | .mk e desc :: orderBy =>
    let c := env.scalars.compareTermValues (evalExpr env ctx g e a) (evalExpr env ctx g e b)
    let c := if desc then -c else c
    if c = 0 then compareRows env ctx g orderBy a b else c
termination_by (sizeOf orderBy, 0)

/-- `evalSelect`. -/
def evalSelect (env : Env) (ctx : EvalCtx) (g : Graph) (q : Query) (solutions : List Row) :
    Result :=
  match q with
  | .mk m p projs groupBy having orderBy =>
    let q := Query.mk m p projs groupBy having orderBy
    let solutions :=
      if !groupBy.isEmpty || hasAggregates q then evalAggregation env ctx g q solutions
      else solutions
    let solutions := solutions.map fun s => projectExprs env ctx g projs s
    let solutions :=
      if orderBy.isEmpty then solutions
      else env.scalars.sortFunc (fun a b => compareRows env ctx g orderBy a b) solutions
    let solutions := if m.distinct then uniqueBy (solutionKey m.vars) solutions else solutions
    let solutions := (limitPushdown env g q).getD (sliceRows m.offset m.limit solutions)
    let vars := m.vars.getD (selectStarVars p solutions)
    .select vars (solutions.map (projectRow vars))
termination_by (sizeOf q, 2)

/-- `evalQuery`. -/
def evalQuery (env : Env) (ctx : EvalCtx) (g : Graph) (q : Query) (init : Row) : Result :=
  match q with
  | .mk m p projs groupBy having orderBy =>
    let q := Query.mk m p projs groupBy having orderBy
    let solutions :=
      if init = ∅ then evalPatternUpTo env ctx g p (pushdownLimit q)
      else (evalPatternPreBound env ctx g p init).map fun s => s ∪ init
    match m.type with
    | .select => evalSelect env ctx g q solutions
    | .ask => .ask ((askPushdown env g q).getD !solutions.isEmpty)
termination_by (sizeOf q, 3)

end

end GoRdf
