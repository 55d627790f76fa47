import Mathlib.Data.List.Basic

/-!
# Terms and Graphs of the Shapes Validator

`Term`, `Triple` and `Graph` of package `shacl`, which puts a simpler interface
over the terms and graphs of the library.

The lookup tables of a graph are maps keyed by `indexKey`, filled in the order
in which the graph lists its triples. A lookup is therefore a filter of that
list. A triple term has no counterpart here: `fromRDFLib` turns it into the term
of no kind.

## Main definitions

* `ShaclTerm`, `ShaclTriple`: `Term` and `Triple`.
* `ShaclTerm.termKey`, `ShaclTerm.indexKey`, `ShaclTerm.equal`: How terms are
  compared.
* `objectsOf`, `subjectsOf`: `Objects` and `Subjects`.
-/

namespace GoRdf

/-- `Term` of package `shacl`. -/
inductive ShaclTerm
  | none
  | iri (value : String)
  | literal (value datatype language : String)
  | blank (value : String)
deriving DecidableEq

/-- `Triple` of package `shacl`. -/
structure ShaclTriple where
  subject : ShaclTerm
  predicate : ShaclTerm
  object : ShaclTerm
deriving DecidableEq

/-- `TermKind`. -/
inductive ShaclTermKind
  | none
  | iri
  | literal
  | blank
deriving DecidableEq

/-- `Term.TermKey`. Nothing marks where the parts of a literal end. -/
def ShaclTerm.termKey : ShaclTerm → List Char
  | .iri v => 'I' :: ':' :: v.toList
  | .literal v dt lang =>
    if lang ≠ "" then 'L' :: ':' :: v.toList ++ '@' :: lang.toList
    else 'L' :: ':' :: v.toList ++ '^' :: '^' :: dt.toList
  | .blank v => 'B' :: ':' :: v.toList
  | .none => []

/-- `indexKey`: the kind, and the text that tells terms of that kind apart. -/
def ShaclTerm.indexKey : ShaclTerm → ShaclTermKind × List Char
  | .none => (.none, [])
  | .iri v => (.iri, v.toList)
  | .literal v dt lang => (.literal, (ShaclTerm.literal v dt lang).termKey)
  | .blank v => (.blank, v.toList)

/-- `Term.Equal`. The term of no kind is not even equal to itself. -/
def ShaclTerm.equal : ShaclTerm → ShaclTerm → Bool
  | .iri v, .iri v' => v == v'
  | .literal v dt lang, .literal v' dt' lang' => v == v' && dt == dt' && lang == lang'
  | .blank v, .blank v' => v == v'
  | _, _ => false

/-- `Graph.Objects`. -/
def objectsOf (g : List ShaclTriple) (s p : ShaclTerm) : List ShaclTerm :=
  (g.filter fun t => t.subject.indexKey = s.indexKey ∧ t.predicate.indexKey = p.indexKey).map
    fun t => t.object

/-- `Graph.Subjects`. -/
def subjectsOf (g : List ShaclTriple) (p o : ShaclTerm) : List ShaclTerm :=
  (g.filter fun t => t.predicate.indexKey = p.indexKey ∧ t.object.indexKey = o.indexKey).map
    fun t => t.subject

end GoRdf
