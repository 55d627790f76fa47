import GoRdf.Core.Term
import GoRdf.Lib.Search
import GoRdf.Lib.Saturate

/-!
# The RDFS Engine

`RDFSClosure` of package `reasoning`: an engine that derives triples by the
rules rdfs2, rdfs3, rdfs7 and rdfs9 until a pass derives none.

Terms are those of the unchecked constructors, `NewURIRefUnsafe` and `NewBNode`.
The engine never compares terms. It files schema triples under the `TermKey` of
their subject, and it tells triples apart by `tripleKey`, which joins three keys
with a bar.

The order a store lists its triples in is not fixed, not even from one scan to
the next, so it is a parameter (`Enumeration`). The context and the errors of
the store are left out: a run here is one that no error ends.

## Main definitions

* `RdfGraph`: A graph of IRIs, blank nodes and literals.
* `tripleKey`: The key of the dedup set.
* `SchemaIndexes`, `buildSchemaIndexes`, `transitiveClose`: The schema, by key.
* `derived`: What the rules derive from one triple.
* `rdfsEngine`, `rdfsClosure`: The engine, and `RDFSClosure`.
-/

namespace GoRdf

namespace Reasoning

/-! ## Terms -/

/-- `term.URIRef`, of any text. -/
abbrev URIRef := URIRefOf anyChar

/-- `term.Subject`, with labels of any text. -/
abbrev Subject := SubjectOf anyChar

/-- `term.Term`. -/
abbrev Term := TermOf anyChar

/-- `term.Triple`. -/
abbrev Triple := TripleOf anyChar

/-- The texts of `TermKey`. -/
abbrev Key := List Char

/-- `NewURIRefUnsafe`. -/
def uriRef (value : String) : URIRef :=
  ⟨value, all_anyChar value⟩

/-- `namespace.RDF.Type`. -/
def rdfType : URIRef := uriRef "http://www.w3.org/1999/02/22-rdf-syntax-ns#type"

/-- `namespace.RDFS.Domain`. -/
def rdfsDomain : URIRef := uriRef "http://www.w3.org/2000/01/rdf-schema#domain"

/-- `namespace.RDFS.Range`. -/
def rdfsRange : URIRef := uriRef "http://www.w3.org/2000/01/rdf-schema#range"

/-- `namespace.RDFS.SubClassOf`. -/
def rdfsSubClassOf : URIRef := uriRef "http://www.w3.org/2000/01/rdf-schema#subClassOf"

/-- `namespace.RDFS.SubPropertyOf`. -/
def rdfsSubPropertyOf : URIRef := uriRef "http://www.w3.org/2000/01/rdf-schema#subPropertyOf"

/-- An IRI, a blank node or a literal. -/
def isPlain : Term → Bool
  | .subject s => s.isName
  | .literal _ => true

/-- A triple without triple terms. -/
def Plain (t : Triple) : Prop :=
  t.subject.isName = true ∧ isPlain t.object = true

instance (t : Triple) : Decidable (Plain t) :=
  inferInstanceAs (Decidable (_ ∧ _))

/-- A finite graph of IRIs, blank nodes and literals. -/
structure RdfGraph where
  triples : List Triple
  nodup : triples.Nodup
  plain : ∀ t ∈ triples, Plain t

/-- The orders in which a store lists triples, by the number of the pass that
    asks. -/
structure Enumeration where
  order : Nat → List Triple → List Triple
  perm : ∀ n ts, (order n ts).Perm ts

/-- The store that lists its triples as they were added. -/
def asAdded : Enumeration :=
  ⟨fun _ ts => ts, fun _ ts => .refl ts⟩

/-! ## The dedup set -/

/-- `tripleKey`. -/
def tripleKey (t : Triple) : Key :=
  t.subject.termKey ++ '|' :: t.predicate.termKey ++ '|' :: t.object.termKey

/-! ## Schema indexes -/

/-- The schema indexes of `rdfsEngine`. A map to slices is the list of its
    entries, in the order they were appended. -/
structure SchemaIndexes where
  domains : List (Key × Subject)
  ranges : List (Key × Subject)
  subClassOf : List (Key × Subject)
  subPropOf : List (Key × URIRef)

/-- One loop of `buildSchemaIndexes`: the triples with predicate `p`, in the order
    `scan` lists them, filed under their subject when `as` accepts the object. -/
def fileBySubject {α : Type} (scan : List Triple → List Triple) (p : URIRef)
    (as : Term → Option α) (g : List Triple) : List (Key × α) :=
  (scan (g.filter fun t => t.predicate = p)).filterMap fun t =>
    (as t.object).map fun c => (t.subject.termKey, c)

/-- `buildSchemaIndexes`. -/
def buildSchemaIndexes (scan : List Triple → List Triple) (g : List Triple) : SchemaIndexes :=
  { domains := fileBySubject scan rdfsDomain TermOf.asSubject g
    ranges := fileBySubject scan rdfsRange TermOf.asSubject g
    subClassOf := fileBySubject scan rdfsSubClassOf TermOf.asSubject g
    subPropOf := fileBySubject scan rdfsSubPropertyOf TermOf.asURIRef g }

/-- `transitiveClose`: for every key, a breadth-first search from its entries. An
    entry is queued at most once, and the entries under the key itself once more. -/
def transitiveClose {α : Type} (key : α → Key) (m : List (Key × α)) : List (Key × α) :=
  (m.map Prod.fst).dedup.flatMap fun k =>
    (Lib.search m key (2 * m.length) [] (Lib.entries m k)).map fun a => (k, a)

/-- `closeTransitive`. -/
def closeTransitive (idx : SchemaIndexes) : SchemaIndexes :=
  { idx with
    subClassOf := transitiveClose SubjectOf.termKey idx.subClassOf
    subPropOf := transitiveClose URIRefOf.termKey idx.subPropOf }

/-! ## Rules -/

/-- What `applyRules` emits for one triple. -/
def derived (idx : SchemaIndexes) (t : Triple) : List Triple :=
  let pk := t.predicate.termKey
  -- rdfs2
  (Lib.entries idx.domains pk).map (fun c => ⟨t.subject, rdfType, .subject c⟩) ++
  -- rdfs3, where the object may be a subject
  (match t.object.asSubject with
    | some o => (Lib.entries idx.ranges pk).map fun c => ⟨o, rdfType, .subject c⟩
    | none => []) ++
  -- rdfs7
  (Lib.entries idx.subPropOf pk).map (fun q => ⟨t.subject, q, t.object⟩) ++
  -- rdfs9
  if pk = rdfType.termKey then
    (Lib.entries idx.subClassOf t.object.termKey).map fun c => ⟨t.subject, rdfType, .subject c⟩
  else []

/-- Whether `run` builds the indexes again after it has added the triple. -/
def isSchemaPredicate (t : Triple) : Bool :=
  let pk := t.predicate.termKey
  pk == rdfsSubClassOf.termKey || pk == rdfsSubPropertyOf.termKey ||
    pk == rdfsDomain.termKey || pk == rdfsRange.termKey

/-- `rdfsEngine`. A pass offers what it emits to the dedup set. -/
def rdfsEngine (enum : Enumeration) : Lib.Engine Triple Key SchemaIndexes where
  key := tripleKey
  build n g := closeTransitive (buildSchemaIndexes (enum.order n) g)
  offers n idx g := (enum.order n g).flatMap (derived idx)
  schema := isSchemaPredicate

/-- `RDFSClosure`: the number of triples added, and the graph after it. -/
def rdfsClosure (enum : Enumeration) (fuel : Nat) (g : List Triple) : Option (Nat × List Triple) :=
  ((rdfsEngine enum).run fuel 0 ((rdfsEngine enum).start g)).map fun st => (st.added, st.facts)

end Reasoning

end GoRdf
