import Mathlib.Data.Finmap
import GoRdf.Core.Path
import GoRdf.Lib.Iterate

/-!
# Basic Graph Patterns

`eachBGPSolution` and what it is made of: rows of bindings, the terms of a
triple pattern, and the nested loops over the triples of a graph.

The text of a pattern term is read once here instead of at every use. What is
left is what `resolvePatternTerm` tells apart: a variable, a constant, a
prefixed name, which a prefix map may fail to know, and a triple term. A blank
node label `_:x` is a prefixed name under the prefix `_`. The constants of a
pattern have been resolved against the base; those of a template have not, since
they are read in another way.

Cancellation, the solution budget and store errors are left out: nothing stops
an evaluation but its consumer.

## Main definitions

* `Row`: A solution, the source's `map[string]Term`.
* `PatternTerm`, `PatternTriple`: The terms and triples of a pattern.
* `resolvePatternTerm`: `resolvePatternTerm`.
* `eachBGPSolution`: `eachBGPSolution` and `eachPathSolution`.
* `evalBGPInOrder`: `evalBGPInOrder`.
-/

namespace GoRdf

open Lib

/-! ## Rows -/

/-- A solution: `map[string]Term`. -/
abbrev Row := Finmap fun _ : String => Term

/-- `mergeBindings`: the second row wins. -/
def mergeBindings (a b : Row) : Row :=
  b ∪ a

/-- `isCompatible`: the rows have the same value, by its N3 form, wherever both
    have one. -/
def isCompatible (a b : Row) : Bool :=
  decide (∀ v ∈ a.keys, (a.lookup v).all fun x => (b.lookup v).all fun y => x.n3 == y.n3)

/-- The projection of `evalSelect`: the variables that have a value. -/
def projectRow (vars : List String) (row : Row) : Row :=
  vars.foldl
    (fun out v =>
      match row.lookup v with
      | some x => out.insert v x
      | none => out)
    ∅

/-! ## Pattern terms -/

/-- A term of a triple pattern. -/
inductive PatternTerm
  | var (name : String)
  | const (t : Term)
  | name (pfx loc : String)
  | triple (subject predicate object : PatternTerm)
deriving DecidableEq

/-- A blank node label. Nothing sets it apart from a name under the prefix `_`. -/
def PatternTerm.label (x : String) : PatternTerm :=
  .name "_" x

/-- What a query brings along: what its prefixed names stand for, the comparison
    of literals by value, `literalsEqual`, where an error counts as different, and,
    if it declares a base, `resolveRelativeIRI` against that. -/
structure Prologue where
  names : String → String → Option URIRef
  literalsEqual : Literal → Literal → Bool
  base : Option (URIRef → URIRef)

/-- `resolvePatternTerm`: absent when nothing is known of the position. -/
def resolvePatternTerm (pl : Prologue) (row : Row) : PatternTerm → Option Term
  | .var v => row.lookup v
  | .const t => some t
  | .name pfx loc => (pl.names pfx loc).map URIRefOf.toTerm
  | .triple s p o => do
      -- `resolveTripleTermPattern`
      let s ← resolvePatternTerm pl row s
      let p ← resolvePatternTerm pl row p
      let o ← resolvePatternTerm pl row o
      let s ← s.asSubject
      let p ← p.asURIRef
      return .subject (.triple s p o)

/-- There is a variable in the term. -/
def PatternTerm.hasVariables : PatternTerm → Bool
  | .var _ => true
  | .const _ => false
  | .name _ _ => false
  | .triple s p o => s.hasVariables || p.hasVariables || o.hasVariables

/-- `isVarTripleTerm`: a triple term with a variable in it. -/
def PatternTerm.isVarTripleTerm : PatternTerm → Bool
  | .triple s p o => (PatternTerm.triple s p o).hasVariables
  | _ => false

mutual

/-- `rdfTermEqual` on subjects, an error counting as different. -/
def subjectsEqual (pl : Prologue) : Subject → Subject → Bool
  | .triple s p o, .triple s' p' o' =>
    subjectsEqual pl s s' && p.n3 == p'.n3 && rdfTermEqual pl o o'
  | .triple _ _ _, _ => false
  | _, .triple _ _ _ => false
  | a, b => a.n3 == b.n3

/-- `rdfTermEqual`, an error counting as different: `termValuesEqual`. -/
def rdfTermEqual (pl : Prologue) : Term → Term → Bool
  | .literal a, .literal b => pl.literalsEqual a b
  | .subject a, .subject b => subjectsEqual pl a b
  | _, _ => false

end

/-- `matchTripleTermPattern`, and its loop body for the components. A variable
    takes the value or has it already, a nested triple term is matched in turn,
    and anything else is compared by value. -/
def matchTripleTermPattern (pl : Prologue) : PatternTerm → Term → Row → Option Row
  | .var v, actual, row =>
    match row.lookup v with
    | some existing => if existing.n3 == actual.n3 then some row else none
    | none => some (row.insert v actual)
  | .triple s p o, actual, row =>
    match actual with
    | .subject (.triple s' p' o') => do
        let row ← matchTripleTermPattern pl s (.subject s') row
        let row ← matchTripleTermPattern pl p p'.toTerm row
        matchTripleTermPattern pl o o' row
    | _ => none
  | .const t, actual, row => if rdfTermEqual pl t actual then some row else none
  | .name pfx loc, actual, row => do
      let u ← pl.names pfx loc
      if rdfTermEqual pl u.toTerm actual then some row else none

/-! ## Triple patterns -/

/-- The predicate of a triple pattern: a term, or `PredicatePath`. -/
inductive Verb
  | term (t : PatternTerm)
  | path (p : Path)

/-- `Triple` of a parsed pattern. -/
structure PatternTriple where
  subject : PatternTerm
  predicate : Verb
  object : PatternTerm

/-- A resolved subject position: a wildcard, a subject, or nothing that could
    ever match. -/
def asSubjectEnd : Option Term → Option (Option Subject)
  | none => some none
  | some t => t.asSubject.map some

/-- A resolved predicate position. -/
def asPredicateEnd : Option Term → Option (Option URIRef)
  | none => some none
  | some t => t.asURIRef.map some

/-- What the graph is asked for; absent when a bound term cannot stand where it
    would have to. -/
def storePattern (pl : Prologue) (row : Row) (s p o : PatternTerm) : Option TriplePattern := do
  let s ← asSubjectEnd (resolvePatternTerm pl row s)
  let p ← asPredicateEnd (resolvePatternTerm pl row p)
  return ⟨s, p, resolvePatternTerm pl row o⟩

/-- A variable takes the term it meets, unless it has one. -/
def bindVar (pt : PatternTerm) (actual : Term) (row : Row) : Row :=
  match pt with
  | .var v => if v ∈ row then row else row.insert v actual
  | _ => row

/-- A subject or object position binds its variables; a triple term that does
    not match skips the triple. -/
def bindEnd (pl : Prologue) (pt : PatternTerm) (actual : Term) (row : Row) : Option Row :=
  if pt.isVarTripleTerm then matchTripleTermPattern pl pt actual row
  else some (bindVar pt actual row)

/-- The row after a triple. -/
def bindTriple (pl : Prologue) (s p o : PatternTerm) (row : Row) (t : Triple) : Option Row := do
  let row ← bindEnd pl s (.subject t.subject) row
  bindEnd pl o t.object (bindVar p t.predicate.toTerm row)

/-- The row after a pair of a path. A triple term at an end binds nothing. -/
def bindPair (s o : PatternTerm) (row : Row) (q : Pair) : Row :=
  bindVar o q.2 (bindVar s q.1 row)

/-! ## Solutions -/

/-- `eachBGPSolution`, with `eachPathSolution` for a path: nested loops in the
    order given, until `yield` answers `false`. -/
def eachBGPSolution {σ : Type} (pl : Prologue) (g : Graph) :
    List PatternTriple → Row → (Row → σ → Bool × σ) → σ → Bool × σ
  | [], row, yield, st => yield row st
  | ⟨s, .term p, o⟩ :: rest, row, yield, st =>
    match storePattern pl row s p o with
    | none => (true, st)
    | some pat =>
      forEach
        (fun t st =>
          match bindTriple pl s p o row t with
          | none => (true, st)
          | some row' => eachBGPSolution pl g rest row' yield st)
        (g.triples pat) st
  | ⟨s, .path p, o⟩ :: rest, row, yield, st =>
    match asSubjectEnd (resolvePatternTerm pl row s) with
    | none => (true, st)
    | some subj =>
      forEach (fun q st => eachBGPSolution pl g rest (bindPair s o row q) yield st)
        (p.eval g subj (resolvePatternTerm pl row o)) st

/-- The consumer of `evalBGPInOrder`: no limit, or the first `limit` rows. -/
def collectUpTo (limit : Int) (row : Row) (results : List Row) : Bool × List Row :=
  (decide (limit ≤ 0) || decide (((results ++ [row]).length : Int) < limit), results ++ [row])

/-- `evalBGPInOrder`. -/
def evalBGPInOrder (pl : Prologue) (g : Graph) (triples : List PatternTriple) (row : Row)
    (limit : Int) : List Row :=
  (eachBGPSolution pl g triples row (collectUpTo limit) []).2

end GoRdf
