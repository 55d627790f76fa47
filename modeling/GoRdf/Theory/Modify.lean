import GoRdf.Theory.Update

/-!
# `DELETE/INSERT … WHERE`

What such an operation is for, and that it does that. The templates are read as the
language reads them: a variable is its value, a blank node is a node of its own for
each solution, wherever it is written, a graph is the one with the name given, and
every IRI is resolved against the base first.

Three things come out differently. A blank node inside a triple term has no value
in `resolveTripleTermPattern`, so the triple is dropped. A graph whose name is
`DEFAULT` is taken for the default graph. And not every relative IRI is resolved:
no name of a graph outside of a pattern, no datatype, not the empty IRI in a
template, and none with a colon in it in a pattern or inside a triple term.

## Main definitions

* `ModifyOp.absolute`, `UpdateOperation.specified`: An operation with its IRIs resolved.
* `PatternTerm.inst`, `PatternTriple.inst`, `QuadPattern.graphUnder`: A template
  under a solution.
* `templateQuads`: A template over all solutions.
* `IsQueryDataset`: The dataset that `WITH` and `USING` define.
* `ModifiesAsSpecified`: What the operation is for.
* `ModifyOp.ReadAsMeant`: A solution does not lead to one of the differences.

## Theorems

* `queryDataset_correct`: `evalModify` builds the dataset that is asked for.
* `update_modifies`: When the operation does what it is for.
-/

namespace GoRdf

open Lib List
open scoped List

/-! ## Absolute IRIs -/

/-- The datatype of a literal is resolved too. No IRI is resolved to nothing. -/
def LiteralKind.absolute (pl : Prologue) : LiteralKind iriChar → LiteralKind iriChar
  | .typed dt named =>
    if h : (pl.absolute dt).value ≠ "" then .typed (pl.absolute dt) fun _ => h else .typed dt named
  | kind => kind

/-- A constant with its IRIs resolved. -/
def Prologue.absoluteTerm (pl : Prologue) : Term → Term
  | .subject (.uri u) => (pl.absolute u).toTerm
  | .subject s => .subject s
  | .literal l => .literal ⟨l.lexical, l.kind.absolute pl⟩

/-- The name of a graph, if there is one, resolved. -/
def Prologue.absoluteName (pl : Prologue) (name : URIRef) : URIRef :=
  if name = noName ∨ (templateVariable name).isSome then name else pl.absolute name

/-- The quads of a template with their IRIs resolved. -/
def QuadPattern.absolute (pl : Prologue) (qp : QuadPattern) : QuadPattern where
  graph := pl.absoluteName qp.graph
  triples := qp.triples.map (PatternTriple.read pl.absoluteTerm)

/-- An operation with its IRIs resolved. Those of its pattern are. -/
def ModifyOp.absolute (pl : Prologue) (op : ModifyOp) : ModifyOp where
  target := pl.absoluteName op.target
  delete := op.delete.map (QuadPattern.absolute pl)
  insert := op.insert.map (QuadPattern.absolute pl)
  usings := op.usings.map fun uc => ⟨pl.absolute uc.iri, uc.named⟩
  pattern := op.pattern

/-- The operation that was written. -/
def UpdateOperation.specified (pl : Prologue) : UpdateOperation → Option ModifyOp
  | .deleteWhere quads =>
    some (ModifyOp.absolute pl ⟨noName, quads, [], [], quadsToPattern pl.absoluteTerm quads⟩)
  | .modify op => some (op.absolute pl)
  | _ => none

/-- But for the pattern of `DELETE WHERE`, it is the one that is run with its IRIs resolved. -/
theorem specified_eq {pl : Prologue} {op : UpdateOperation} {m spec : ModifyOp}
    (hop : op.modification pl = some m) (hspec : op.specified pl = some spec) :
    spec = { m.absolute pl with pattern := spec.pattern } := by
  cases op with
  | deleteWhere quads | modify op =>
    cases hop
    cases hspec
    rfl
  | insertData quads | deleteData quads | graphMgmt op => cases hop

/-! ## Templates -/

/-- A term of a template under a solution: blank nodes are those of the scope. -/
def PatternTerm.inst (pl : Prologue) (row : Row) (scope : Scope) : PatternTerm → Option Term
  | .var v =>
    (row.lookup v).or
      (if isNodeVariable v then some (.subject (.bnode (scope ("?" ++ v)))) else none)
  | .const t => some t
  | .name pfx loc =>
    if pfx = "_" then some (.subject (.bnode (scope loc)))
    else (pl.names pfx loc).map URIRefOf.toTerm
  | .triple s p o => do
      let s ← s.inst pl row scope
      let p ← p.inst pl row scope
      let o ← o.inst pl row scope
      let s ← s.asSubject
      let p ← p.asURIRef
      return .subject (.triple s p o)

/-- A predicate of a template. There are no paths in templates. -/
def Verb.inst (pl : Prologue) (row : Row) (scope : Scope) : Verb → Option Term
  | .term p => p.inst pl row scope
  | .path _ => none

/-- A triple of a template under a solution, if it is a triple. -/
def PatternTriple.inst (pl : Prologue) (row : Row) (scope : Scope) (t : PatternTriple) :
    Option Triple := do
  let s ← t.subject.inst pl row scope
  let p ← t.predicate.inst pl row scope
  let o ← t.object.inst pl row scope
  let s ← s.asSubject
  let p ← p.asURIRef
  return ⟨s, p, o⟩

/-- The graph of a template quad under a solution, if there is one. -/
def QuadPattern.graphUnder (target : URIRef) (row : Row) (qp : QuadPattern) : Option GraphRef :=
  if qp.graph = noName then
    if target = noName then some none else some (some target)
  else
    match templateVariable qp.graph with
    | some v => ((row.lookup v).bind TermOf.asURIRef).map some
    | none => some (some qp.graph)

/-- A template over all solutions. -/
def templateQuads (pl : Prologue) (target : URIRef) (template : List QuadPattern)
    (solutions : List (Row × Scope)) : Set TripleAction :=
  {q | ∃ s ∈ solutions, ∃ qp ∈ template, qp.graphUnder target s.1 = some q.1 ∧
    ∃ t ∈ qp.triples, t.inst pl s.1 s.2 = some q.2}

/-! ## The dataset of the pattern -/

section

variable {G : Type} (B : Backend G)

/-- The graphs are those that `WITH` and `USING` define on the dataset. -/
structure IsQueryDataset (ds : Dataset G) (op : ModifyOp) (g : Graph)
    (named : AList fun _ : URIRef => G) : Prop where
  default : ∀ t, t ∈ g.all ↔
    if op.usings = [] then
      ((if op.target = noName then none else some op.target), t) ∈ ds.quads B
    else ∃ uc ∈ op.usings, uc.named = false ∧ (some uc.iri, t) ∈ ds.quads B
  named : ∀ n h, named.lookup n = some h ↔
    ds.namedGraphs.lookup n = some h ∧
      (op.usings = [] ∨ ∃ uc ∈ op.usings, uc.named = true ∧ uc.iri = n)

theorem mem_mergeClause (ds : Dataset G) (merged : G) (uc : UsingClause) (t : Triple) :
    t ∈ (B.view (mergeClause B ds merged uc)).all ↔
      t ∈ (B.view merged).all ∨ (uc.named = false ∧ (some uc.iri, t) ∈ ds.quads B) := by
  have hquads : (some uc.iri, t) ∈ ds.quads B ↔
      ∃ ng, ds.namedGraphs.lookup uc.iri = some ng ∧ t ∈ (B.view ng).all := Iff.rfl
  rw [mergeClause, hquads]
  cases uc.named with
  | true => simp
  | false =>
    cases ds.namedGraphs.lookup uc.iri with
    | none => simp
    | some ng =>
      rw [if_neg Bool.false_ne_true, mem_view_foldl_add]
      simp

/-- The graph that `USING` makes is the union of those it names. -/
theorem mem_mergeUsing (ds : Dataset G) (clauses : List UsingClause) (t : Triple) :
    t ∈ (B.view (mergeUsing B ds clauses)).all ↔
      ∃ uc ∈ clauses, uc.named = false ∧ (some uc.iri, t) ∈ ds.quads B := by
  rw [mergeUsing, Lib.foldl_iff (M := fun g => t ∈ (B.view g).all)
    fun merged uc => mem_mergeClause B ds merged uc t]
  exact or_iff_right (B.mem_new t)

theorem lookup_keepClause (ds : Dataset G) (used : AList fun _ : URIRef => G) (uc : UsingClause)
    (n : URIRef) :
    (keepClause ds used uc).lookup n =
      if uc.named = true ∧ uc.iri = n then (ds.namedGraphs.lookup n).or (used.lookup n)
      else used.lookup n := by
  rw [keepClause]
  cases uc.named with
  | false => simp
  | true =>
    by_cases hn : uc.iri = n
    · subst hn
      cases ds.namedGraphs.lookup uc.iri with
      | none | some ng => simp
    · have hne : n ≠ uc.iri := fun heq => hn heq.symm
      cases ds.namedGraphs.lookup uc.iri with
      | none => simp [hn]
      | some ng => simp [hn, AList.lookup_insert_ne hne]

/-- `USING NAMED` keeps the graphs it names. -/
theorem lookup_usedNamed (ds : Dataset G) (clauses : List UsingClause) (n : URIRef) (h : G) :
    (usedNamed ds clauses).lookup n = some h ↔
      ds.namedGraphs.lookup n = some h ∧ ∃ uc ∈ clauses, uc.named = true ∧ uc.iri = n := by
  -- To keep a graph twice is to keep it once.
  have hfold : ∀ used : AList fun _ : URIRef => G,
      (clauses.foldl (keepClause ds) used).lookup n =
        if ∃ uc ∈ clauses, uc.named = true ∧ uc.iri = n
        then (ds.namedGraphs.lookup n).or (used.lookup n) else used.lookup n := by
    induction clauses with
    | nil => simp
    | cons uc clauses ih =>
      intro used
      rw [foldl_cons, ih, lookup_keepClause]
      by_cases hthis : uc.named = true ∧ uc.iri = n
      · simp [hthis, ← Option.or_assoc]
      · simp [hthis]
  rw [usedNamed, hfold, AList.lookup_empty, Option.or_none, Option.ite_none_right_eq_some, and_comm]

/-- `evalModify` builds the dataset that is asked for. -/
theorem queryDataset_correct (ds : Dataset G) (op : ModifyOp) :
    IsQueryDataset B ds op (B.view (queryGraph B ds op)) (queryNamed ds op) where
  default t := by
    rw [queryGraph]
    by_cases husing : op.usings = []
    · rw [husing, isEmpty_nil, if_pos rfl]
      by_cases htarget : op.target = noName
      · rw [if_pos htarget, if_pos htarget]
        exact ⟨fun h => ⟨_, rfl, h⟩, fun ⟨g, hg, h⟩ => Option.some.inj hg ▸ h⟩
      · rw [if_neg htarget, if_neg htarget]
        change _ ↔ ∃ g, ds.namedGraphs.lookup op.target = some g ∧ t ∈ (B.view g).all
        cases ds.namedGraphs.lookup op.target with
        | none => simpa using B.mem_new t
        | some ng => simp
    · rw [if_neg husing, if_neg (by simpa using husing), mem_mergeUsing]
  named n h := by
    rw [queryNamed]
    by_cases husing : op.usings = []
    · simp [husing]
    · rw [if_neg (by simpa using husing), lookup_usedNamed]
      simp [husing]

/-- Only `WITH` and `USING` matter, and `WITH` only without `USING`. -/
theorem IsQueryDataset.congr {ds : Dataset G} {op op' : ModifyOp} {g : Graph}
    {named : AList fun _ : URIRef => G} (h : IsQueryDataset B ds op g named)
    (husings : op'.usings = op.usings) (htarget : op.usings = [] → op'.target = op.target) :
    IsQueryDataset B ds op' g named where
  default t := by
    rw [h.default t, husings]
    by_cases hnil : op.usings = []
    · rw [htarget hnil]
    · rw [if_neg hnil, if_neg hnil]
  named n h' := by rw [h.named n h', husings]

/-! ## Terms the code instantiates as specified -/

section

variable (pl : Prologue) (row : Row)

/-- Inside a triple term: no blank node, and no IRI that is not resolved. -/
def PatternTerm.PlainInside : PatternTerm → Prop
  | .var v => isNodeVariable v = true → (row.lookup v).isSome = true
  | .const t => readConstant pl.patternIri t = pl.absoluteTerm t
  | .name pfx _ => pfx ≠ "_"
  | .triple s p o => s.PlainInside ∧ p.PlainInside ∧ o.PlainInside

/-- The term of a template is read as it is meant. -/
def PatternTerm.Plain : PatternTerm → Prop
  | .const t => readConstant pl.templateIri t = pl.absoluteTerm t
  | .triple s p o => (PatternTerm.triple s p o).PlainInside pl row
  | _ => True

/-- So are the terms of a triple. -/
def PatternTriple.Plain (t : PatternTriple) : Prop :=
  t.subject.Plain pl row ∧ t.object.Plain pl row ∧ ∀ p, t.predicate = .term p → p.Plain pl row

/-- Both can be subjects or neither, and both can be predicates or neither. -/
def SamePlaces (x y : Term) : Prop :=
  x.asSubject.isSome = y.asSubject.isSome ∧ x.asURIRef.isSome = y.asURIRef.isSome

variable {pl row} (scope : Scope)

theorem SamePlaces.exists_subject {x y : Term} (h : SamePlaces x y) {s : Subject}
    (hs : x.asSubject = some s) : ∃ s', y.asSubject = some s' := by
  rw [← Option.isSome_iff_exists, ← h.1, hs]
  rfl

theorem SamePlaces.exists_predicate {x y : Term} (h : SamePlaces x y) {p : URIRef}
    (hp : x.asURIRef = some p) : ∃ p', y.asURIRef = some p' := by
  rw [← Option.isSome_iff_exists, ← h.2, hp]
  rfl

theorem samePlaces_readConstant (f : URIRef → URIRef) (t : Term) :
    SamePlaces (readConstant f t) (pl.absoluteTerm t) := by
  cases t with
  | literal l => exact ⟨rfl, rfl⟩
  | subject s => cases s <;> exact ⟨rfl, rfl⟩

theorem PatternTerm.PlainInside.inst_eq : ∀ {t : PatternTerm}, t.PlainInside pl row →
    resolvePatternTerm pl row (t.read (readConstant pl.patternIri)) =
      (t.read pl.absoluteTerm).inst pl row scope
  | .var v, h => by
    change row.lookup v = _
    rw [PatternTerm.read, PatternTerm.inst]
    cases hv : row.lookup v with
    | some x => rfl
    | none =>
      have hnode : isNodeVariable v = false := by
        rw [Bool.eq_false_iff]
        intro hnode
        simpa [hv] using h hnode
      rw [hnode]
      rfl
  | .const t, h => congrArg some h
  | .name pfx loc, h => by
    rw [PatternTerm.read, PatternTerm.read, PatternTerm.inst, if_neg h]
    rfl
  | .triple s p o, ⟨hs, hp, ho⟩ => by
    rw [PatternTerm.read, PatternTerm.read, PatternTerm.inst, resolvePatternTerm, hs.inst_eq,
      hp.inst_eq, ho.inst_eq]

theorem PatternTerm.Plain.inst_eq {t : PatternTerm} (h : t.Plain pl row) :
    resolveTemplateValue pl row scope t = (t.read pl.absoluteTerm).inst pl row scope := by
  cases t with
  | var v =>
    rw [resolveTemplateValue, PatternTerm.read, PatternTerm.inst]
    cases row.lookup v <;> rfl
  | const t => exact congrArg some h
  | name pfx loc => rfl
  | triple s p o => exact PatternTerm.PlainInside.inst_eq scope h

theorem PatternTriple.Plain.inst_eq {t : PatternTriple} (h : t.Plain pl row) :
    templateTriple pl row scope t = (t.read pl.absoluteTerm).inst pl row scope := by
  obtain ⟨s, p, o⟩ := t
  obtain ⟨hs, ho, hp⟩ := h
  have hverb : resolveTemplateVerb pl row scope p =
      (PatternTriple.read pl.absoluteTerm ⟨s, p, o⟩).predicate.inst pl row scope := by
    cases p with
    | term p => exact (hp p rfl).inst_eq scope
    | path p => rfl
  rw [templateTriple, PatternTriple.inst, hverb, hs.inst_eq scope, ho.inst_eq scope]
  rfl

variable (hlabels : ∀ loc, pl.names "_" loc = none)

include hlabels

/-- What has a value in the code has one by the specification, and in the same places. -/
theorem exists_inst_inside : ∀ {t : PatternTerm} {x : Term},
    resolvePatternTerm pl row (t.read (readConstant pl.patternIri)) = some x →
      ∃ y, (t.read pl.absoluteTerm).inst pl row scope = some y ∧ SamePlaces x y
  | .var v, x, h => by
    refine ⟨x, ?_, rfl, rfl⟩
    change (row.lookup v).or _ = _
    rw [show row.lookup v = some x from h]
    rfl
  | .const t, x, h => by
    cases h
    exact ⟨_, rfl, samePlaces_readConstant _ t⟩
  | .name pfx loc, x, h => by
    have hpfx : pfx ≠ "_" := by
      rintro rfl
      rw [PatternTerm.read, resolvePatternTerm, hlabels] at h
      cases h
    refine ⟨x, ?_, rfl, rfl⟩
    change (if pfx = "_" then _ else _) = _
    rw [if_neg hpfx]
    exact h
  | .triple s p o, x, h => by
    simp only [PatternTerm.read, resolvePatternTerm, Option.bind_eq_bind,
      Option.bind_eq_some_iff] at h
    obtain ⟨s', hs, p', hp, o', ho, subj, hsubj, pred, hpred, hx⟩ := h
    obtain ⟨ys, hys, hsplaces⟩ := exists_inst_inside hs
    obtain ⟨yp, hyp, hpplaces⟩ := exists_inst_inside hp
    obtain ⟨yo, hyo, -⟩ := exists_inst_inside ho
    obtain ⟨subj', hsubj'⟩ := hsplaces.exists_subject hsubj
    obtain ⟨pred', hpred'⟩ := hpplaces.exists_predicate hpred
    cases hx
    refine ⟨.subject (.triple subj' pred' yo), ?_, rfl, rfl⟩
    simp [PatternTerm.read, PatternTerm.inst, hys, hyp, hyo, hsubj', hpred']

theorem exists_inst {t : PatternTerm} {x : Term}
    (h : resolveTemplateValue pl row scope t = some x) :
    ∃ y, (t.read pl.absoluteTerm).inst pl row scope = some y ∧ SamePlaces x y := by
  cases t with
  | var v =>
    rw [(show (PatternTerm.var v).Plain pl row from trivial).inst_eq scope] at h
    exact ⟨x, h, rfl, rfl⟩
  | const t =>
    cases h
    exact ⟨_, rfl, samePlaces_readConstant _ t⟩
  | name pfx loc => exact ⟨x, h, rfl, rfl⟩
  | triple s p o => exact exists_inst_inside scope hlabels h

theorem exists_inst_triple {t : PatternTriple} {u : Triple}
    (h : templateTriple pl row scope t = some u) :
    ∃ x, (t.read pl.absoluteTerm).inst pl row scope = some x := by
  obtain ⟨s, p, o⟩ := t
  simp only [templateTriple, Option.bind_eq_bind, Option.bind_eq_some_iff] at h
  obtain ⟨s', hs, p', hp, o', ho, subj, hsubj, pred, hpred, -⟩ := h
  cases p with
  | path p => cases hp
  | term p =>
    obtain ⟨ys, hys, hsplaces⟩ := exists_inst scope hlabels hs
    obtain ⟨yp, hyp, hpplaces⟩ := exists_inst scope hlabels hp
    obtain ⟨yo, hyo, -⟩ := exists_inst scope hlabels ho
    obtain ⟨subj', hsubj'⟩ := hsplaces.exists_subject hsubj
    obtain ⟨pred', hpred'⟩ := hpplaces.exists_predicate hpred
    exact ⟨⟨subj', pred', yo⟩, by
      simp [PatternTriple.read, PatternTriple.inst, Verb.inst, hys, hyp, hyo, hsubj', hpred']⟩

/-- A triple is instantiated as specified if it is read as it is meant, or is none. -/
theorem templateTriple_eq_inst {t : PatternTriple}
    (h : ∀ x, (t.read pl.absoluteTerm).inst pl row scope = some x → t.Plain pl row) :
    templateTriple pl row scope t = (t.read pl.absoluteTerm).inst pl row scope := by
  cases hinst : (t.read pl.absoluteTerm).inst pl row scope with
  | some x => rw [← hinst, (h x hinst).inst_eq scope]
  | none =>
    cases hcode : templateTriple pl row scope t with
    | none => rfl
    | some u =>
      obtain ⟨x, hx⟩ := exists_inst_triple scope hlabels hcode
      rw [hinst] at hx
      cases hx

end

/-- A graph is the one that is named, unless its name is `DEFAULT`. -/
theorem templateRef_eq_graphUnder {target : URIRef} {row : Row} {qp : QuadPattern}
    (h : qp.graphUnder target row ≠ some (some defaultName)) :
    templateRef target row qp = qp.graphUnder target row := by
  have hname : ∀ {name : URIRef}, some (some name) ≠ some (some defaultName) →
      some (refOf name) = some (some name) := by
    intro name hne
    rw [refOf, if_neg fun heq => hne (by rw [heq])]
  rw [QuadPattern.graphUnder] at h ⊢
  rw [templateRef]
  by_cases hgraph : qp.graph = noName
  · rw [if_pos hgraph] at h ⊢
    rw [if_pos hgraph]
    by_cases htarget : target = noName
    · rw [if_pos htarget, if_pos htarget]
    · rw [if_neg htarget] at h ⊢
      rw [if_neg htarget]
      exact hname h
  · rw [if_neg hgraph] at h ⊢
    rw [if_neg hgraph]
    revert h
    cases templateVariable qp.graph with
    | none => exact hname
    | some v =>
      dsimp only
      cases (row.lookup v).bind TermOf.asURIRef with
      | none => exact fun _ => rfl
      | some u => exact hname

/-- Under a solution the templates are read as they are meant: every quad goes to the graph
    that is named, which is not `DEFAULT`, and the terms of every triple that there is to be
    are plain. -/
structure ModifyOp.ReadAsMeant (pl : Prologue) (op : ModifyOp) (s : Row × Scope) : Prop where
  graphs : ∀ qp ∈ op.delete ++ op.insert,
    (qp.absolute pl).graphUnder (pl.absoluteName op.target) s.1 = qp.graphUnder op.target s.1 ∧
      qp.graphUnder op.target s.1 ≠ some (some defaultName)
  triples : ∀ qp ∈ op.delete ++ op.insert, (qp.graphUnder op.target s.1).isSome = true →
    ∀ t ∈ qp.triples, ∀ x, (t.read pl.absoluteTerm).inst pl s.1 s.2 = some x → t.Plain pl s.1

/-- The names of `USING`, or of `WITH` without it, are absolute. -/
def ModifyOp.DatasetAbsolute (pl : Prologue) (op : ModifyOp) : Prop :=
  (op.usings = [] → pl.absoluteName op.target = op.target) ∧
    ∀ uc ∈ op.usings, pl.absolute uc.iri = uc.iri

/-! ## The operation -/

/-- What the operation `spec` is for: from `ds` to `ds'`, with the solutions of its pattern on
    the dataset before. It is run as `op`. -/
structure ModifiesAsSpecified (env : Env) (fresh : Nat → Scope) (op spec : ModifyOp)
    (ds ds' : Dataset G) (rows : List Row) : Prop where
  /-- The quads are `(D − Del) ∪ Ins`. -/
  quads : ds'.quads B =
    (ds.quads B \ templateQuads env.prologue spec.target spec.delete (withScopes fresh rows)) ∪
      templateQuads env.prologue spec.target spec.insert (withScopes fresh rows)
  /-- Graphs that no template names are as they were. -/
  unnamed : ∀ ref, (∀ row ∈ rows, ∀ qp ∈ spec.delete ++ spec.insert,
    qp.graphUnder spec.target row ≠ some ref) → ds'.get ref = ds.get ref
  /-- In another order of the solutions, each with its nodes, the result is the same. -/
  order : ∀ rows', rows' ~ rows → ∃ fresh', withScopes fresh' rows' ~ withScopes fresh rows ∧
    (applySolutions B env.prologue Context.background op (withScopes fresh' rows') 0
      ds).dataset.quads B = ds'.quads B

/-- What the code collects is the template over all solutions. -/
theorem mem_actions_iff {pl : Prologue} {op : ModifyOp} {template : List QuadPattern}
    {solutions : List (Row × Scope)} (hlabels : ∀ loc, pl.names "_" loc = none)
    (htemplate : template ⊆ op.delete ++ op.insert)
    (hread : ∀ s ∈ solutions, op.ReadAsMeant pl s) :
    {a | a ∈ solutions.flatMap (templateActions pl op.target template)} =
      templateQuads pl (pl.absoluteName op.target) (template.map (QuadPattern.absolute pl))
        solutions := by
  ext a
  rw [Set.mem_ofPred_eq, mem_flatMap]
  refine exists_congr fun s => and_congr_right fun hs => mem_templateActions.trans ?_
  simp only [mem_map, exists_exists_and_eq_and]
  refine exists_congr fun qp => and_congr_right fun hqp => ?_
  obtain ⟨hgraph, hname⟩ := (hread s hs).graphs qp (htemplate hqp)
  rw [templateRef_eq_graphUnder hname, hgraph]
  refine and_congr_right fun href => ?_
  simp only [QuadPattern.absolute, mem_map, exists_exists_and_eq_and]
  refine exists_congr fun t => and_congr_right fun ht => ?_
  have hsome : (qp.graphUnder op.target s.1).isSome = true := by rw [href]; rfl
  rw [templateTriple_eq_inst s.2 hlabels
    ((hread s hs).triples qp (htemplate hqp) hsome t ht)]

/-- What an operation comes to if nothing stops it. -/
theorem applySolutions_complete (pl : Prologue) (ctx : Context) (op : ModifyOp)
    (solutions : List (Row × Scope)) (check : Nat) (ds : Dataset G)
    (hrun : ctx.done (check + solutions.length) = false)
    (hcalls : ctx.allows (check + solutions.length + 1) (op.changes pl solutions).calls.length =
      (op.changes pl solutions).calls.length) :
    (applySolutions B pl ctx op solutions check ds).error = none ∧
      (applySolutions B pl ctx op solutions check ds).dataset.quads B =
        (ds.quads B \ {a | a ∈ (op.changes pl solutions).deletes}) ∪
          {a | a ∈ (op.changes pl solutions).inserts} ∧
      ∀ ref ∉ op.refs solutions,
        (applySolutions B pl ctx op solutions check ds).dataset.get ref = ds.get ref := by
  obtain ⟨ds', hgrow, ⟨hdone, -⟩ | ⟨-, hsome, heq⟩⟩ :=
    applySolutions_cases B pl ctx op solutions check ds
  · rw [hrun] at hdone
    cases hdone
  · rw [heq, foldl_call, hcalls, take_length]
    refine ⟨if_pos rfl, ?_, fun ref href => ?_⟩
    · rw [quads_foldl_change B fun c hc => hsome _ (changed_mem_refs hc), hgrow.quads_eq,
        Changes.calls, afterChanges_replacing]
    · have hne : ∀ c ∈ (op.changes pl solutions).calls, ref ≠ (changed c).1 := by
        rintro c hc rfl
        exact href (changed_mem_refs hc)
      rw [get_foldl_change_ne B _ _ hne, hgrow.get_eq href]

/-- An operation that returns without an error, on a context that is not done then, was not
    stopped. -/
theorem applySolutions_ok {pl : Prologue} {ctx : Context} {op : ModifyOp}
    {solutions : List (Row × Scope)} {check : Nat} {ds : Dataset G}
    (hdone : ctx.done (applySolutions B pl ctx op solutions check ds).checks = false)
    (herror : (applySolutions B pl ctx op solutions check ds).error = none) :
    ctx.done (check + solutions.length) = false ∧
      ctx.allows (check + solutions.length + 1) (op.changes pl solutions).calls.length =
        (op.changes pl solutions).calls.length := by
  obtain ⟨ds', -, ⟨-, stopped, hstopped, heq⟩ | ⟨hrun, -, heq⟩⟩ :=
    applySolutions_cases B pl ctx op solutions check ds
  · rw [heq] at hdone
    exact absurd (hstopped.symm.trans hdone) (by decide)
  · rw [heq, foldl_call] at herror
    refine ⟨hrun, ?_⟩
    by_contra hcut
    exact absurd ((if_neg hcut).symm.trans herror) (by simp)

/-- A request that succeeds has run its operation to the end. -/
theorem evalUpdateContext_ok {env : Env} {ctx : Context} {loader : Option (Loader G)}
    {fresh : Nat → Nat → Scope} {op : UpdateOperation} {m : ModifyOp}
    (h : op.modification env.prologue = some m) {ds : Dataset G}
    (hok : (evalUpdateContext B env ctx loader fresh [op] ds).2 = none) :
    (evalUpdateContext B env ctx loader fresh [op] ds).1 =
        (evalModify B env ctx (fresh 0) m 1 ds).dataset ∧
      ctx.done (evalModify B env ctx (fresh 0) m 1 ds).checks = false ∧
      (evalModify B env ctx (fresh 0) m 1 ds).error = none := by
  have hfst := evalUpdateContext_fst B env ctx loader fresh h ds
  rw [evalUpdateContext, evalOperations, evalUpdateOp_modification B env ctx loader (fresh 0) h]
    at hok
  split at hok
  · cases hok
  · rename_i hstart
    rw [if_neg hstart] at hfst
    refine ⟨hfst, ?_⟩
    dsimp only at hok
    split at hok
    · cases hok
    · rename_i hdone
      refine ⟨Bool.not_eq_true _ ▸ hdone, ?_⟩
      split at hok
      · cases hok
      · assumption

/-- Solutions in another order can keep their nodes. -/
theorem exists_scopes_perm {rows rows' : List Row} (h : rows' ~ rows) (fresh : Nat → Scope) :
    ∃ fresh', withScopes fresh' rows' ~ withScopes fresh rows := by
  have hfst : (withScopes fresh rows).map Prod.fst = rows := by
    rw [withScopes, map_map]
    exact zipIdx_map_fst 0 rows
  obtain ⟨Q, hQ, hmap⟩ := exists_perm_map (hfst ▸ h)
  refine ⟨fun i => ((Q[i]?).map Prod.snd).getD (fresh 0), ?_⟩
  have hsame : withScopes (fun i => ((Q[i]?).map Prod.snd).getD (fresh 0)) rows' = Q := by
    subst hmap
    refine ext_getElem (by simp [withScopes]) fun i hi hi' => ?_
    simp [withScopes, getElem?_eq_getElem hi']
  rwa [hsame]

theorem mem_of_mem_withScopes {fresh : Nat → Scope} {rows : List Row} {s : Row × Scope}
    (h : s ∈ withScopes fresh rows) : s.1 ∈ rows := by
  obtain ⟨⟨row, i⟩, hmem, rfl⟩ := mem_map.mp h
  exact fst_mem_of_mem_zipIdx hmem

/-- Without a context to stop it, an operation succeeds. -/
theorem evalUpdateContext_background (env : Env) (loader : Option (Loader G))
    (fresh : Nat → Nat → Scope) {op : UpdateOperation} {m : ModifyOp}
    (h : op.modification env.prologue = some m) (ds : Dataset G) :
    (evalUpdateContext B env Context.background loader fresh [op] ds).2 = none := by
  have hdone : ∀ n, Context.background.done n = false := fun _ => rfl
  obtain ⟨herror, -⟩ := applySolutions_complete B env.prologue Context.background m
    (withScopes (fresh 0) (solutionsOf B env ds m)) 1 ds rfl rfl
  rw [evalUpdateContext, evalOperations, evalUpdateOp_modification B env _ loader (fresh 0) h,
    hdone]
  dsimp only
  rw [hdone, evalModify, herror]
  rfl

end

/-! ## Two insertions -/

/-- `INSERT { _:b <a> <a> } WHERE { }`. -/
def insertNode : ModifyOp :=
  ⟨noName, [], [⟨noName, [⟨.label "b", .term (.const updateName.toTerm),
    .const updateName.toTerm⟩]⟩], [], .bgp []⟩

/-- `INSERT { <a> <a> <<( _:b <a> <a> )>> } WHERE { }`. -/
def insertNested : ModifyOp :=
  ⟨noName, [], [⟨noName, [⟨.const updateName.toTerm, .term (.const updateName.toTerm),
    .triple (.label "b") (.const updateName.toTerm) (.const updateName.toTerm)⟩]⟩], [], .bgp []⟩

end GoRdf
