import GoRdf.Core.Eval

/-!
# Updates

`EvalUpdateContext` and the operations it runs.

A graph of the dataset is what its store makes of it: a `Backend` keeps the
contract of `Store` for one graph. The source's pointers to graphs are
`GraphRef`s here, the name a graph has in the dataset, so that two names never
stand for one graph.

The caller's context is seen only through the checks that are made of it, by
`stop`, by `poll` and by every call of a store. Once a check finds it done, all
later ones do, so the number of checks before that is all there is to a context.
A call of `stop` that does not look at the context is a check that finds it not
yet done. What the evaluation of a `WHERE` clause checks is not counted: it
changes nothing, and the next check finds a context done that was found done
there.

Blank nodes that a template makes up are taken from a supply, one `Scope` for
each solution of each operation.

The IRIs of a request can be relative, and are then read in three ways: in a
pattern, by `resolvePatternTerm`, against the base if there is no colon in them; in
a template, by `resolveTermRef`, against the base if they are not empty and have
no `://` in them; and as the name of a graph, outside of a pattern, as they stand.

## Main definitions

* `Backend`, `Dataset`, `Context`: A graph that can be changed, `Dataset`, and the
  caller's context.
* `resolveTemplateValue`, `templateTriple`: A template under a solution.
* `evalModify`, `evalDeleteWhere`, `evalInsertData`, `evalDeleteData`,
  `evalGraphMgmt`: The operations.
* `evalUpdateContext`: `EvalUpdateContext`.
-/

namespace GoRdf

/-! ## Graphs and datasets -/

/-- Graphs that can be changed: `NewGraph`, `Add` and `Remove`, with the contract of
    `Store`. -/
structure Backend (G : Type) where
  new : G
  view : G → Graph
  add : G → Triple → G
  remove : G → TriplePattern → G
  mem_new : ∀ t, t ∉ (view new).all
  mem_add : ∀ g u t, t ∈ (view (add g u)).all ↔ t = u ∨ t ∈ (view g).all
  mem_remove : ∀ g pat t,
    t ∈ (view (remove g pat)).all ↔ t ∈ (view g).all ∧ pat.matches t = false

/-- `Dataset`, without its loader. -/
structure Dataset (G : Type) where
  default : G
  namedGraphs : AList fun _ : URIRef => G

/-- A pointer to a graph of a dataset: a named one, or the default graph. -/
abbrev GraphRef := Option URIRef

/-- `tripleAction`: a triple of a graph. -/
abbrev TripleAction := GraphRef × Triple

/-- The pattern of one triple. -/
def TripleOf.exactly (t : Triple) : TriplePattern :=
  ⟨some t.subject, some t.predicate, some t.object⟩

namespace Dataset

variable {G : Type}

/-- The graph a pointer leads to. -/
def get (ds : Dataset G) : GraphRef → Option G
  | none => some ds.default
  | some n => ds.namedGraphs.lookup n

/-- A change of the graph that a pointer leads to. -/
def modify (ds : Dataset G) (ref : GraphRef) (f : G → G) : Dataset G :=
  match ref with
  | none => { ds with default := f ds.default }
  | some n =>
    match ds.namedGraphs.lookup n with
    | some g => { ds with namedGraphs := ds.namedGraphs.insert n (f g) }
    | none => ds

end Dataset

/-! ## Contexts -/

/-- The caller's context: it is done after so many checks, or never. -/
structure Context where
  doneAfter : Option Nat

/-- `context.Background`. -/
def Context.background : Context :=
  ⟨none⟩

/-- What the check with this number finds. -/
def Context.done (ctx : Context) (check : Nat) : Bool :=
  ctx.doneAfter.any fun n => decide (n ≤ check)

/-- What an update can fail with: `ErrQueryCancelled`, an error of a store or
    `ErrUpdateRejected`. -/
inductive UpdateError
  | cancelled
  | store
  | rejected (reason : String)
deriving DecidableEq

/-- How far an operation has come. Nothing more happens after an error. -/
structure Progress (G : Type) where
  dataset : Dataset G
  checks : Nat
  error : Option UpdateError

namespace Progress

variable {G : Type}

/-- What comes next, unless the operation has already returned. -/
def next (st : Progress G) (f : Progress G → Progress G) : Progress G :=
  match st.error with
  | some _ => st
  | none => f st

/-- A call of a store, which refuses to act for a context that is done. -/
def call (ctx : Context) (f : Dataset G → Dataset G) (st : Progress G) : Progress G :=
  st.next fun st =>
    if ctx.done st.checks then { st with error := some .store }
    else { st with dataset := f st.dataset, checks := st.checks + 1 }

end Progress

/-! ## Syntax -/

/-- `QuadPattern`. The name of its graph is empty for the default graph, and has a
    question mark in front if it is a variable. -/
structure QuadPattern where
  graph : URIRef
  triples : List PatternTriple

/-- `UsingClause`. -/
structure UsingClause where
  iri : URIRef
  named : Bool

/-- `ModifyOp`. `target` is `With`, empty if there is none, and `usings` are `Using`. -/
structure ModifyOp where
  target : URIRef
  delete : List QuadPattern
  insert : List QuadPattern
  usings : List UsingClause
  pattern : Pattern

/-- The operations of `GraphMgmtOp`. -/
inductive GraphMgmtKind
  | clear | drop | create | load | add | copy | move
deriving DecidableEq

/-- `GraphMgmtOp`. -/
structure GraphMgmtOp where
  op : GraphMgmtKind
  silent : Bool
  target : URIRef
  source : URIRef
  into : URIRef

/-- `UpdateOperation`. -/
inductive UpdateOperation
  | insertData (quads : List QuadPattern)
  | deleteData (quads : List QuadPattern)
  | deleteWhere (quads : List QuadPattern)
  | modify (op : ModifyOp)
  | graphMgmt (op : GraphMgmtOp)

/-- The empty text, where a graph could be named. -/
def noName : URIRef :=
  ⟨"", rfl⟩

/-- The word for the default graph. -/
def defaultName : URIRef :=
  ⟨"DEFAULT", by decide⟩

/-- The variable that a graph name is. -/
def templateVariable (name : URIRef) : Option String :=
  match name.value.toList with
  | '?' :: v => some (String.ofList v)
  | _ => none

/-! ## Templates -/

/-- `bnodes.Scope`: the node of a label. -/
abbrev Scope := String → BNode

/-- The variables that the parser makes up for nodes without a label. -/
def isNodeVariable (v : String) : Bool :=
  [".reifier", ".bnode", ".coll"].any fun p => p.toList.isPrefixOf v.toList

/-- `resolveRelativeIRI`, if the request declares a base. -/
def Prologue.absolute (pl : Prologue) (u : URIRef) : URIRef :=
  match pl.base with
  | none => u
  | some resolve => resolve u

/-- An IRI, as `resolvePatternTerm` reads it. -/
def Prologue.patternIri (pl : Prologue) (u : URIRef) : URIRef :=
  if ':' ∈ u.value.toList then u else pl.absolute u

/-- An IRI, as `resolveTermRef` reads it. -/
def Prologue.templateIri (pl : Prologue) (u : URIRef) : URIRef :=
  if u = noName ∨ "://".toList <:+: u.value.toList then u else pl.absolute u

/-- A constant whose IRIs are read by `f`. The datatype of a literal is taken as it stands. -/
def readConstant (f : URIRef → URIRef) : Term → Term
  | .subject (.uri u) => (f u).toTerm
  | t => t

/-- A term whose constants are read by `f`. -/
def PatternTerm.read (f : Term → Term) : PatternTerm → PatternTerm
  | .var v => .var v
  | .const t => .const (f t)
  | .name pfx loc => .name pfx loc
  | .triple s p o => .triple (s.read f) (p.read f) (o.read f)

/-- A triple whose constants are read by `f`. -/
def PatternTriple.read (f : Term → Term) (t : PatternTriple) : PatternTriple where
  subject := t.subject.read f
  predicate :=
    match t.predicate with
    | .term p => .term (p.read f)
    | .path p => .path p
  object := t.object.read f

/-- `resolveTemplateValue`. -/
def resolveTemplateValue (pl : Prologue) (row : Row) (scope : Scope) : PatternTerm → Option Term
  | .var v =>
    match row.lookup v with
    | some x => some x
    | none => if isNodeVariable v then some (.subject (.bnode (scope ("?" ++ v)))) else none
  | .const t => some (readConstant pl.templateIri t)
  | .name pfx loc =>
    if pfx = "_" then some (.subject (.bnode (scope loc)))
    else (pl.names pfx loc).map URIRefOf.toTerm
  | .triple s p o =>
    resolvePatternTerm pl row ((PatternTerm.triple s p o).read (readConstant pl.patternIri))

/-- The predicate of a template triple. A path has no text, and so no value. -/
def resolveTemplateVerb (pl : Prologue) (row : Row) (scope : Scope) : Verb → Option Term
  | .term p => resolveTemplateValue pl row scope p
  | .path _ => none

/-- A triple of a template under a solution, if it is one. -/
def templateTriple (pl : Prologue) (row : Row) (scope : Scope) (t : PatternTriple) :
    Option Triple := do
  let s ← resolveTemplateValue pl row scope t.subject
  let p ← resolveTemplateVerb pl row scope t.predicate
  let o ← resolveTemplateValue pl row scope t.object
  let s ← s.asSubject
  let p ← p.asURIRef
  return ⟨s, p, o⟩

section

variable {G : Type} (B : Backend G)

/-- `getGraph`. -/
def getGraph (ds : Dataset G) (name : URIRef) : Option GraphRef :=
  if name = defaultName then some none
  else if name ∈ ds.namedGraphs then some (some name)
  else none

/-- `getOrCreateGraph`. -/
def getOrCreateGraph (ds : Dataset G) (name : URIRef) : GraphRef × Dataset G :=
  if name = defaultName then (none, ds)
  else if name ∈ ds.namedGraphs then (some name, ds)
  else (some name, { ds with namedGraphs := ds.namedGraphs.insert name B.new })

/-- `graphForQuad`. -/
def graphForQuad (ds : Dataset G) (graph : URIRef) : GraphRef × Dataset G :=
  if graph = noName then (none, ds) else getOrCreateGraph B ds graph

/-- `graphForVar`. -/
def graphForVar (ds : Dataset G) (v : String) (row : Row) : Option GraphRef × Dataset G :=
  match (row.lookup v).bind TermOf.asURIRef with
  | none => (none, ds)
  | some u =>
    let found := getOrCreateGraph B ds u
    (some found.1, found.2)

/-- `resolveModifyGraph`, and, without a target, `graphForQuadSolution`. -/
def resolveModifyGraph (ds : Dataset G) (graph target : URIRef) (row : Row) :
    Option GraphRef × Dataset G :=
  if graph = noName then
    if target = noName then (some none, ds)
    else
      let found := getOrCreateGraph B ds target
      (some found.1, found.2)
  else
    match templateVariable graph with
    | some v => graphForVar B ds v row
    | none =>
      let found := getOrCreateGraph B ds graph
      (some found.1, found.2)

/-- The loop over the quads of a template, for one solution. -/
def instantiateTemplate (pl : Prologue) (target : URIRef) (row : Row) (scope : Scope) :
    List QuadPattern → Dataset G → List TripleAction × Dataset G
  | [], ds => ([], ds)
  | qp :: template, ds =>
    match resolveModifyGraph B ds qp.graph target row with
    | (none, ds) => instantiateTemplate pl target row scope template ds
    | (some ref, ds) =>
      let rest := instantiateTemplate pl target row scope template ds
      ((qp.triples.filterMap (templateTriple pl row scope)).map (Prod.mk ref) ++ rest.1, rest.2)

/-- What `evalModify` collects. -/
structure Changes where
  deletes : List TripleAction
  inserts : List TripleAction

/-- The loop over the solutions: absent when it was stopped. -/
def instantiateSolutions (pl : Prologue) (ctx : Context) (op : ModifyOp) :
    List (Row × Scope) → Nat → Dataset G → Changes → Option Changes × Nat × Dataset G
  | [], check, ds, changes => (some changes, check, ds)
  | (row, scope) :: solutions, check, ds, changes =>
    if ctx.done check then (none, check, ds)
    else
      let deletes := instantiateTemplate B pl op.target row scope op.delete ds
      let inserts := instantiateTemplate B pl op.target row scope op.insert deletes.2
      instantiateSolutions pl ctx op solutions (check + 1) inserts.2
        ⟨changes.deletes ++ deletes.1, changes.inserts ++ inserts.1⟩

/-- A triple is removed from its graph. -/
def removeAction (ds : Dataset G) (a : TripleAction) : Dataset G :=
  ds.modify a.1 fun g => B.remove g a.2.exactly

/-- A triple is added to its graph. -/
def addAction (ds : Dataset G) (a : TripleAction) : Dataset G :=
  ds.modify a.1 fun g => B.add g a.2

/-- `evalModify` after its `WHERE` clause. -/
def applySolutions (pl : Prologue) (ctx : Context) (op : ModifyOp)
    (solutions : List (Row × Scope)) (check : Nat) (ds : Dataset G) : Progress G :=
  match instantiateSolutions B pl ctx op solutions check ds ⟨[], []⟩ with
  | (none, check, ds) => ⟨ds, check, none⟩
  | (some changes, check, ds) =>
    if ctx.done check then ⟨ds, check, none⟩
    else
      let removed := changes.deletes.foldl
        (fun st a => st.call ctx fun ds => removeAction B ds a) ⟨ds, check + 1, none⟩
      changes.inserts.foldl (fun st a => st.call ctx fun ds => addAction B ds a) removed

/-! ## The dataset of a `WHERE` clause -/

/-- The named graphs, as `evalPattern` reads them. -/
def withNamedGraphs (env : Env) (named : AList fun _ : URIRef => G) : Env :=
  { env with
    namedGraphs := named.entries.map fun e => (e.1, B.view e.2)
    nodup := by
      rw [List.map_map]
      exact named.keys_nodup }

/-- `USING` merges a graph into the default graph. -/
def mergeClause (ds : Dataset G) (merged : G) (uc : UsingClause) : G :=
  if uc.named then merged
  else
    match ds.namedGraphs.lookup uc.iri with
    | some ng => (B.view ng).all.foldl B.add merged
    | none => merged

/-- The default graph that `USING` makes. -/
def mergeUsing (ds : Dataset G) (clauses : List UsingClause) : G :=
  clauses.foldl (mergeClause B ds) B.new

/-- `USING NAMED` keeps a named graph. -/
def keepClause (ds : Dataset G) (used : AList fun _ : URIRef => G) (uc : UsingClause) :
    AList fun _ : URIRef => G :=
  if uc.named then
    match ds.namedGraphs.lookup uc.iri with
    | some ng => used.insert uc.iri ng
    | none => used
  else used

/-- The named graphs that `USING NAMED` keeps. -/
def usedNamed (ds : Dataset G) (clauses : List UsingClause) : AList fun _ : URIRef => G :=
  clauses.foldl (keepClause ds) ∅

/-- The default graph of the `WHERE` clause. -/
def queryGraph (ds : Dataset G) (op : ModifyOp) : G :=
  if op.usings.isEmpty then
    if op.target = noName then ds.default else (ds.namedGraphs.lookup op.target).getD B.new
  else mergeUsing B ds op.usings

/-- The named graphs of the `WHERE` clause. -/
def queryNamed (ds : Dataset G) (op : ModifyOp) : AList fun _ : URIRef => G :=
  if op.usings.isEmpty then ds.namedGraphs else usedNamed ds op.usings

/-- The solutions of the `WHERE` clause. -/
def solutionsOf (env : Env) (ds : Dataset G) (op : ModifyOp) : List Row :=
  evalPattern (withNamedGraphs B env (queryNamed ds op)) ⟨∅, false⟩
    (B.view (queryGraph B ds op)) op.pattern

/-- Each solution has a scope of its own. -/
def withScopes (fresh : Nat → Scope) (solutions : List Row) : List (Row × Scope) :=
  solutions.zipIdx.map fun s => (s.1, fresh s.2)

/-! ## Operations -/

/-- `evalModify`. -/
def evalModify (env : Env) (ctx : Context) (fresh : Nat → Scope) (op : ModifyOp) (check : Nat)
    (ds : Dataset G) : Progress G :=
  applySolutions B env.prologue ctx op (withScopes fresh (solutionsOf B env ds op)) check ds

/-- One quad of `quadsToPattern`, whose constants are read by `f`. -/
def QuadPattern.toPattern (f : Term → Term) (qp : QuadPattern) : Pattern :=
  let bgp : Pattern := .bgp (qp.triples.map (PatternTriple.read f))
  if qp.graph = noName then bgp
  else
    match templateVariable qp.graph with
    | some v => .graph (.var v) bgp
    | none => .graph (.const (f qp.graph.toTerm)) bgp

/-- `quadsToPattern`. -/
def quadsToPattern (f : Term → Term) : List QuadPattern → Pattern
  | [] => .bgp []
  | qp :: quads => quads.foldl (fun p qp => .join p (qp.toPattern f)) (qp.toPattern f)

/-- `DELETE WHERE`, written as `DELETE … WHERE`. -/
def deleteWhereOp (pl : Prologue) (quads : List QuadPattern) : ModifyOp :=
  ⟨noName, quads, [], [], quadsToPattern (readConstant pl.patternIri) quads⟩

/-- `evalDeleteWhere`. -/
def evalDeleteWhere (env : Env) (ctx : Context) (fresh : Nat → Scope) (quads : List QuadPattern)
    (check : Nat) (ds : Dataset G) : Progress G :=
  evalModify B env ctx fresh (deleteWhereOp env.prologue quads) check ds

/-- The loops of `evalInsertData` and `evalDeleteData`. -/
def evalData (pl : Prologue) (ctx : Context) (scope : Scope)
    (change : Dataset G → TripleAction → Dataset G) (quads : List QuadPattern)
    (st : Progress G) : Progress G :=
  quads.foldl
    (fun st qp => st.next fun st =>
      let found := graphForQuad B st.dataset qp.graph
      (qp.triples.filterMap (templateTriple pl ∅ scope)).foldl
        (fun st t => st.call ctx fun ds => change ds (found.1, t)) { st with dataset := found.2 })
    st

/-- `evalInsertData`. -/
def evalInsertData (pl : Prologue) (ctx : Context) (scope : Scope) (quads : List QuadPattern)
    (check : Nat) (ds : Dataset G) : Progress G :=
  evalData B pl ctx scope (addAction B) quads ⟨ds, check, none⟩

/-- `evalDeleteData`. -/
def evalDeleteData (pl : Prologue) (ctx : Context) (scope : Scope) (quads : List QuadPattern)
    (check : Nat) (ds : Dataset G) : Progress G :=
  evalData B pl ctx scope (removeAction B) quads ⟨ds, check, none⟩

/-- `clearGraph`. -/
def clearGraph (ctx : Context) (ref : GraphRef) (st : Progress G) : Progress G :=
  st.call ctx fun ds => ds.modify ref fun g => B.remove g TriplePatternOf.any

/-- A named graph is forgotten. -/
def deleteGraph (name : URIRef) (st : Progress G) : Progress G :=
  st.next fun st =>
    { st with dataset := { st.dataset with namedGraphs := st.dataset.namedGraphs.erase name } }

/-- The loop of `CLEAR NAMED` and `DROP NAMED`. -/
def clearNamed (ctx : Context) (op : GraphMgmtKind) (st : Progress G) : Progress G :=
  st.dataset.namedGraphs.keys.foldl
    (fun st name =>
      let st := clearGraph B ctx (some name) st
      if op = .drop then deleteGraph name st else st)
    st

/-- `CLEAR` and `DROP`. -/
def clearTarget (ctx : Context) (op : GraphMgmtOp) (st : Progress G) : Progress G :=
  if op.target = defaultName then clearGraph B ctx none st
  else if op.target.value = "NAMED" then clearNamed B ctx op.op st
  else if op.target.value = "ALL" then
    (clearGraph B ctx none st).next fun st => clearNamed B ctx op.op st
  else if op.target ∈ st.dataset.namedGraphs then
    let st := clearGraph B ctx (some op.target) st
    if op.op = .drop then deleteGraph op.target st else st
  else st

/-- `transferGraphs`. -/
def transferGraphs (ctx : Context) (source target : URIRef) (replace silent : Bool)
    (st : Progress G) : Progress G :=
  match (getGraph st.dataset source).bind st.dataset.get with
  | none =>
    if silent then st
    else { st with error := some (.rejected ("source graph " ++ source.value ++ " not found")) }
  | some src =>
    -- Reading the source is a call of its store.
    (st.call ctx id).next fun st =>
      let found := getOrCreateGraph B st.dataset target
      let st := { st with dataset := found.2 }
      let st := if replace then clearGraph B ctx found.1 st else st
      (B.view src).all.foldl
        (fun st t => st.call ctx fun ds => addAction B ds (found.1, t)) st

/-- `Loader`: the graph after the attempt, and what went wrong. -/
abbrev Loader (G : Type) := G → URIRef → G × Option String

/-- `LOAD`. -/
def loadGraph (loader : Option (Loader G)) (op : GraphMgmtOp) (st : Progress G) : Progress G :=
  match loader with
  | none =>
    if op.silent then st
    else
      { st with
        error := some (.rejected "LOAD not supported: no Loader configured on Dataset") }
  | some load =>
    let found := getOrCreateGraph B st.dataset
      (if op.into = noName then defaultName else op.into)
    match found.2.get found.1 with
    | none => { st with dataset := found.2 }
    | some g =>
      let loaded := load g op.source
      { st with
        dataset := found.2.modify found.1 fun _ => loaded.1
        error :=
          if op.silent then none
          else loaded.2.map fun e => .rejected ("LOAD <" ++ op.source.value ++ ">: " ++ e) }

/-- `MOVE`. -/
def moveGraph (ctx : Context) (op : GraphMgmtOp) (st : Progress G) : Progress G :=
  if op.source = op.target then st
  else
    (transferGraphs B ctx op.source op.target true op.silent st).next fun st =>
      match getGraph st.dataset op.source with
      | none => st
      | some ref =>
        let st := clearGraph B ctx ref st
        if op.source = defaultName then st else deleteGraph op.source st

/-- `evalGraphMgmt`. -/
def evalGraphMgmt (ctx : Context) (loader : Option (Loader G)) (op : GraphMgmtOp) (check : Nat)
    (ds : Dataset G) : Progress G :=
  let st : Progress G := ⟨ds, check, none⟩
  match op.op with
  | .clear => clearTarget B ctx op st
  | .drop => clearTarget B ctx op st
  | .create => st
  | .load => loadGraph B loader op st
  | .add => transferGraphs B ctx op.source op.target false op.silent st
  | .copy => transferGraphs B ctx op.source op.target true op.silent st
  | .move => moveGraph B ctx op st

/-- `evalUpdateOp`. -/
def evalUpdateOp (env : Env) (ctx : Context) (loader : Option (Loader G)) (fresh : Nat → Scope)
    (op : UpdateOperation) (check : Nat) (ds : Dataset G) : Progress G :=
  match op with
  | .insertData quads => evalInsertData B env.prologue ctx (fresh 0) quads check ds
  | .deleteData quads => evalDeleteData B env.prologue ctx (fresh 0) quads check ds
  | .deleteWhere quads => evalDeleteWhere B env ctx fresh quads check ds
  | .modify op => evalModify B env ctx fresh op check ds
  | .graphMgmt op => evalGraphMgmt B ctx loader op check ds

/-- The loop of `EvalUpdateContext`. -/
def evalOperations (env : Env) (ctx : Context) (loader : Option (Loader G))
    (fresh : Nat → Nat → Scope) :
    List UpdateOperation → Nat → Nat → Dataset G → Dataset G × Option UpdateError
  | [], _, _, ds => (ds, none)
  | op :: ops, index, check, ds =>
    if ctx.done check then (ds, some .cancelled)
    else
      let st := evalUpdateOp B env ctx loader (fresh index) op (check + 1) ds
      -- A context that is done is what the request reports, whatever the operation says.
      if ctx.done st.checks then (st.dataset, some .cancelled)
      else
        match st.error with
        | some e => (st.dataset, some e)
        | none => evalOperations env ctx loader fresh ops (index + 1) (st.checks + 1) st.dataset

/-- `EvalUpdateContext`. -/
def evalUpdateContext (env : Env) (ctx : Context) (loader : Option (Loader G))
    (fresh : Nat → Nat → Scope) (ops : List UpdateOperation) (ds : Dataset G) :
    Dataset G × Option UpdateError :=
  evalOperations B env ctx loader fresh ops 0 0 ds

end

end GoRdf
