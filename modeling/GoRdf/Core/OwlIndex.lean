import GoRdf.Core.Rdfs
import GoRdf.Lib.AssocList
import GoRdf.Lib.UnionFind

/-!
# The Indexes of the OWL Engine

`buildSchemaIndexes` of `owlrlEngine`: what the engine reads out of the graph
before its rules run.

The engine compares terms by their keys. On terms of the graphs considered here,
IRIs, blank nodes and literals that name a datatype, `TermKey` is injective, so
the model compares the terms. Keys are kept where the engine orders by them, and
in the dedup set.

Some indexes keep one value where the graph may have several. A field of a
restriction, the cell of a list and the members of a disjoint group are the first
the store lists; a key, an intersection, a union, an enumeration and a complement
are the last. The order is that of `scan`. The order in which Go iterates over a
map only decides the order of emissions, which the order of the next scan covers.

## Main definitions

* `NamedGraph`: A graph whose literals name their datatypes.
* `collectList`: The members of a list, as far as they can be walked.
* `OwlRestriction`, `NegPropAssertion`: What is read off a node.
* `OwlIndexes`, `buildOwlIndexes`: The indexes.
* `TermUnionFind`: The union-find, over keys, as it stands on its own.
* `isSchemaTriple`: The triples after which they are built again.
-/

namespace GoRdf

namespace Reasoning

/-! ## Vocabulary -/

def rdfFirst : URIRef := uriRef "http://www.w3.org/1999/02/22-rdf-syntax-ns#first"

def rdfRest : URIRef := uriRef "http://www.w3.org/1999/02/22-rdf-syntax-ns#rest"

def rdfNil : URIRef := uriRef "http://www.w3.org/1999/02/22-rdf-syntax-ns#nil"

def owlThing : URIRef := uriRef "http://www.w3.org/2002/07/owl#Thing"

def owlNothing : URIRef := uriRef "http://www.w3.org/2002/07/owl#Nothing"

def owlSameAs : URIRef := uriRef "http://www.w3.org/2002/07/owl#sameAs"

def owlDifferentFrom : URIRef := uriRef "http://www.w3.org/2002/07/owl#differentFrom"

def owlEquivalentClass : URIRef := uriRef "http://www.w3.org/2002/07/owl#equivalentClass"

def owlComplementOf : URIRef := uriRef "http://www.w3.org/2002/07/owl#complementOf"

def owlPropertyChainAxiom : URIRef := uriRef "http://www.w3.org/2002/07/owl#propertyChainAxiom"

def owlHasKey : URIRef := uriRef "http://www.w3.org/2002/07/owl#hasKey"

def owlRestrictionClass : URIRef := uriRef "http://www.w3.org/2002/07/owl#Restriction"

def owlOnProperty : URIRef := uriRef "http://www.w3.org/2002/07/owl#onProperty"

def owlHasSelf : URIRef := uriRef "http://www.w3.org/2002/07/owl#hasSelf"

def owlMaxCardinality : URIRef := uriRef "http://www.w3.org/2002/07/owl#maxCardinality"

def owlMaxQualifiedCardinality : URIRef :=
  uriRef "http://www.w3.org/2002/07/owl#maxQualifiedCardinality"

def owlOnClass : URIRef := uriRef "http://www.w3.org/2002/07/owl#onClass"

def owlMembers : URIRef := uriRef "http://www.w3.org/2002/07/owl#members"

def owlNegativePropertyAssertion : URIRef :=
  uriRef "http://www.w3.org/2002/07/owl#NegativePropertyAssertion"

def owlSourceIndividual : URIRef := uriRef "http://www.w3.org/2002/07/owl#sourceIndividual"

def owlAssertionProperty : URIRef := uriRef "http://www.w3.org/2002/07/owl#assertionProperty"

/-- The classes of properties that have an index: `symmetricProps` and the like. -/
inductive PropertyKind
  | symmetric
  | transitive
  | functional
  | inverseFunctional
  | irreflexive
  | asymmetric
deriving DecidableEq

def PropertyKind.iri : PropertyKind → URIRef
  | .symmetric => uriRef "http://www.w3.org/2002/07/owl#SymmetricProperty"
  | .transitive => uriRef "http://www.w3.org/2002/07/owl#TransitiveProperty"
  | .functional => uriRef "http://www.w3.org/2002/07/owl#FunctionalProperty"
  | .inverseFunctional => uriRef "http://www.w3.org/2002/07/owl#InverseFunctionalProperty"
  | .irreflexive => uriRef "http://www.w3.org/2002/07/owl#IrreflexiveProperty"
  | .asymmetric => uriRef "http://www.w3.org/2002/07/owl#AsymmetricProperty"

/-- The predicates between IRIs that are filed under both of them. -/
inductive PairKind
  | inverseOf
  | equivProp
  | propDisjointWith
  | disjointWith
deriving DecidableEq

def PairKind.iri : PairKind → URIRef
  | .inverseOf => uriRef "http://www.w3.org/2002/07/owl#inverseOf"
  | .equivProp => uriRef "http://www.w3.org/2002/07/owl#equivalentProperty"
  | .propDisjointWith => uriRef "http://www.w3.org/2002/07/owl#propertyDisjointWith"
  | .disjointWith => uriRef "http://www.w3.org/2002/07/owl#disjointWith"

/-- The class constructors with a list of members. -/
inductive ListKind
  | intersectionOf
  | unionOf
  | oneOf
deriving DecidableEq

def ListKind.iri : ListKind → URIRef
  | .intersectionOf => uriRef "http://www.w3.org/2002/07/owl#intersectionOf"
  | .unionOf => uriRef "http://www.w3.org/2002/07/owl#unionOf"
  | .oneOf => uriRef "http://www.w3.org/2002/07/owl#oneOf"

/-- The fields of a restriction that hold a class or a value. -/
inductive ValueKind
  | someValuesFrom
  | allValuesFrom
  | hasValue
deriving DecidableEq

def ValueKind.iri : ValueKind → URIRef
  | .someValuesFrom => uriRef "http://www.w3.org/2002/07/owl#someValuesFrom"
  | .allValuesFrom => uriRef "http://www.w3.org/2002/07/owl#allValuesFrom"
  | .hasValue => uriRef "http://www.w3.org/2002/07/owl#hasValue"

/-- The groups of mutually disjoint properties and classes. -/
inductive GroupKind
  | properties
  | classes
deriving DecidableEq

def GroupKind.iri : GroupKind → URIRef
  | .properties => uriRef "http://www.w3.org/2002/07/owl#AllDisjointProperties"
  | .classes => uriRef "http://www.w3.org/2002/07/owl#AllDisjointClasses"

/-- The targets of a negative property assertion. -/
inductive TargetKind
  | individual
  | value
deriving DecidableEq

def TargetKind.iri : TargetKind → URIRef
  | .individual => uriRef "http://www.w3.org/2002/07/owl#targetIndividual"
  | .value => uriRef "http://www.w3.org/2002/07/owl#targetValue"

/-! ## Graphs -/

/-- A name, or a literal whose datatype has a text. -/
def isNamed : Term → Bool
  | .subject _ => true
  | .literal l => match l.kind with
    | .typed dt _ => dt.value != ""
    | _ => true

/-- A finite graph of IRIs, blank nodes and literals that name a datatype, as RDF
    literals do. On its terms, keys are injective. -/
structure NamedGraph extends RdfGraph where
  named : ∀ t ∈ triples, isNamed t.object = true

section

variable (scan : List Triple → List Triple) (g : List Triple)

/-- `Triples(nil, p, nil)`, in the order of the scan. -/
def triplesWith (p : URIRef) : List Triple :=
  scan (g.filter fun t => t.predicate = p)

/-- The object of the first of `Triples(s, p, nil)`: a scan whose callback returns
    `false`. -/
def firstValue (s : Subject) (p : URIRef) : Option Term :=
  (scan (g.filter fun t => t.subject = s ∧ t.predicate = p)).head?.map fun t => t.object

/-- The subjects of type `c`. -/
def typedNodes (c : URIRef) : List Subject :=
  ((triplesWith scan g rdfType).filter fun t => t.object = c.toTerm).map fun t => t.subject

/-! ## Lists -/

/-- The loop of `collectList`, with the cells met before. -/
def collectFrom : Nat → List Term → Term → List Term
  | 0, _, _ => []
  | fuel + 1, visited, cur =>
    if cur = rdfNil.toTerm ∨ cur ∈ visited then []
    else
      match cur.asSubject with
      | none => []
      | some node =>
        match firstValue scan g node rdfFirst with
        | none => []
        | some firstVal =>
          firstVal :: match firstValue scan g node rdfRest with
            | none => []
            | some restVal => collectFrom fuel (cur :: visited) restVal

/-- `collectList`. A cell is the subject of a triple, so there are not more cells
    than triples. -/
def collectList (head : Term) : List Term :=
  collectFrom scan g (g.length + 1) [] head

/-- The IRIs among the members of a list. -/
def collectIRIs (head : Term) : List URIRef :=
  (collectList scan g head).filterMap TermOf.asURIRef

/-! ## Restrictions -/

/-- `owlRestriction`. -/
structure OwlRestriction where
  node : Subject
  onProperty : URIRef
  values : ValueKind → Option Term
  maxCard : Int
  maxQualCard : Int
  onClass : Option Term

/-- `strconv.Atoi` of a literal, and -1 for what is no number. -/
def cardinality : Option Term → Int
  | some (.literal l) => (parseInt64 l.lexical.toList).getD (-1)
  | _ => -1

/-- One turn of `buildRestrictions`. A node without a property is no restriction. -/
def buildRestriction (node : Subject) : Option OwlRestriction :=
  ((firstValue scan g node owlOnProperty).bind TermOf.asURIRef).map fun p =>
    { node := node
      onProperty := p
      values := fun k => firstValue scan g node k.iri
      maxCard := cardinality (firstValue scan g node owlMaxCardinality)
      maxQualCard := cardinality (firstValue scan g node owlMaxQualifiedCardinality)
      onClass := firstValue scan g node owlOnClass }

/-- `negPropAssertion`. -/
structure NegPropAssertion where
  source : Subject
  property : URIRef
  targetI : Option Subject
  targetV : Option Term

/-- One turn of `buildNegPropAssertions`. -/
def buildNegPropAssertion (node : Subject) : Option NegPropAssertion :=
  match (firstValue scan g node owlSourceIndividual).bind TermOf.asSubject,
    (firstValue scan g node owlAssertionProperty).bind TermOf.asURIRef with
  | some source, some property =>
    some
      { source := source
        property := property
        targetI := (firstValue scan g node TargetKind.individual.iri).bind TermOf.asSubject
        targetV := firstValue scan g node TargetKind.value.iri }
  | _, _ => none

/-! ## Indexes -/

/-- The pairs of IRIs a predicate relates, both ways. -/
def scanPairs (k : PairKind) : List (URIRef × URIRef) :=
  Lib.fresh id [] ((triplesWith scan g k.iri).flatMap fun t =>
    match t.subject, t.object.asURIRef with
    | .uri p, some q => [(p, q), (q, p)]
    | _, _ => [])

/-- The pairs of equivalent classes, both ways. -/
def scanEquivClass : List (Subject × Subject) :=
  Lib.fresh id [] ((triplesWith scan g owlEquivalentClass).flatMap fun t =>
    match t.object.asSubject with
    | some c => [(t.subject, c), (c, t.subject)]
    | none => [])

/-- The chains of IRIs filed under a property. -/
def scanChains : List (URIRef × List URIRef) :=
  (triplesWith scan g owlPropertyChainAxiom).filterMap fun t =>
    match t.subject with
    | .uri p =>
      let chain := collectIRIs scan g t.object
      if 2 ≤ chain.length then some (p, chain) else none
    | _ => none

/-- The key properties of a class, the last list that has some. -/
def scanKeys : List (Subject × List URIRef) :=
  Lib.lastWins ((triplesWith scan g owlHasKey).filterMap fun t =>
    let keys := collectIRIs scan g t.object
    if keys = [] then none else some (t.subject, keys))

/-- The members of a class constructor, the last list that has some. -/
def scanMembers (k : ListKind) : List (Subject × List Term) :=
  Lib.lastWins ((triplesWith scan g k.iri).filterMap fun t =>
    let items := collectList scan g t.object
    if items = [] then none else some (t.subject, items))

/-- `buildAllDisjoint`. -/
def buildAllDisjoint (k : GroupKind) : List (List URIRef) :=
  (typedNodes scan g k.iri).filterMap fun node =>
    (firstValue scan g node owlMembers).bind fun o =>
      let uris := collectIRIs scan g o
      if 2 ≤ uris.length then some uris else none

/-- The pairs that `owl:differentFrom` relates, the other way only for subjects. -/
def scanDifferentFrom : List (Term × Term) :=
  (triplesWith scan g owlDifferentFrom).flatMap fun t =>
    match t.object with
    | .subject o => [(.subject t.subject, t.object), (.subject o, .subject t.subject)]
    | .literal _ => [(.subject t.subject, t.object)]

end

/-- Go's order on the keys of two terms. -/
def keyBefore (a b : Term) : Bool :=
  decide (a.termKey < b.termKey)

/-- `unionFind`: `parent` and `rank` over keys, and the first term of each key. -/
structure TermUnionFind where
  forest : Lib.UnionFind Key
  terms : AList fun _ : Key => Term

/-- `newUnionFind`. -/
def newUnionFind : TermUnionFind :=
  ⟨.empty, ∅⟩

namespace TermUnionFind

/-- `add`. -/
def add (uf : TermUnionFind) (t : Term) : TermUnionFind :=
  if uf.forest.members.contains t.termKey then uf
  else ⟨uf.forest.add t.termKey, uf.terms.insert t.termKey t⟩

/-- `union`. -/
def union (uf : TermUnionFind) (a b : Term) : TermUnionFind :=
  let added := (uf.add a).add b
  { added with
    forest := added.forest.union (fun k l => decide (k < l)) a.termKey b.termKey }

/-- `find`, with what the search changes. -/
def find (uf : TermUnionFind) (t : Term) : Option Term × TermUnionFind :=
  if uf.forest.members.contains t.termKey then
    let root := uf.forest.findKey t.termKey
    (uf.terms.lookup root.1, { uf with forest := root.2 })
  else (some t, uf)

/-- `classes`, where the keys are gone through in a given order. The map of the groups has
    no order of its own. -/
def classes (uf : TermUnionFind) (keys : List Key) : List (List Term) :=
  (uf.forest.keyClasses keys).map fun c => c.filterMap uf.terms.lookup

end TermUnionFind

/-- The calls on a `unionFind` that change it. A search shortens paths. -/
inductive UnionFindCall
  | union (a b : Term)
  | find (t : Term)

def UnionFindCall.apply (uf : TermUnionFind) : UnionFindCall → TermUnionFind
  | union a b => uf.union a b
  | find t => (uf.find t).2

/-- `unionFind` after calls one after the other. -/
def unionFindAfter (calls : List UnionFindCall) : TermUnionFind :=
  calls.foldl UnionFindCall.apply newUnionFind

/-- The indexes of `owlrlEngine`, as lists of their entries. -/
structure OwlIndexes where
  props : PropertyKind → List Subject
  pairs : PairKind → List (URIRef × URIRef)
  equivClass : List (Subject × Subject)
  propChainAxiom : List (URIRef × List URIRef)
  hasKeyIndex : List (Subject × List URIRef)
  restrictions : List OwlRestriction
  members : ListKind → List (Subject × List Term)
  complementOf : List (Subject × Term)
  allDisjoint : GroupKind → List (List URIRef)
  differentFrom : List (Term × Term)
  negPropAsserts : List NegPropAssertion
  uf : Lib.UnionFind Term

/-- `buildSchemaIndexes`. -/
def buildOwlIndexes (scan : List Triple → List Triple) (g : List Triple) : OwlIndexes where
  props k := typedNodes scan g k.iri
  pairs := scanPairs scan g
  equivClass := scanEquivClass scan g
  propChainAxiom := scanChains scan g
  hasKeyIndex := scanKeys scan g
  restrictions := (typedNodes scan g owlRestrictionClass).filterMap (buildRestriction scan g)
  members := scanMembers scan g
  complementOf :=
    Lib.lastWins ((triplesWith scan g owlComplementOf).map fun t => (t.subject, t.object))
  allDisjoint := buildAllDisjoint scan g
  differentFrom := scanDifferentFrom scan g
  negPropAsserts :=
    (typedNodes scan g owlNegativePropertyAssertion).filterMap (buildNegPropAssertion scan g)
  uf := Lib.UnionFind.ofPairs keyBefore
    ((triplesWith scan g owlSameAs).map fun t => (.subject t.subject, t.object))

/-- The classes whose instances are indexed. -/
def schemaClasses : List URIRef :=
  [PropertyKind.symmetric.iri, PropertyKind.transitive.iri, PropertyKind.functional.iri,
   PropertyKind.inverseFunctional.iri, PropertyKind.irreflexive.iri, PropertyKind.asymmetric.iri,
   owlRestrictionClass, GroupKind.properties.iri, GroupKind.classes.iri,
   owlNegativePropertyAssertion]

/-- The predicates that are watched. `rdf:first`, `rdf:rest`, `owl:members`,
    `owl:onClass` and those of negative property assertions are not. -/
def schemaPredicates : List URIRef :=
  [PairKind.inverseOf.iri, PairKind.equivProp.iri, owlEquivalentClass, owlSameAs,
   PairKind.propDisjointWith.iri, owlPropertyChainAxiom, owlHasKey, owlOnProperty,
   ValueKind.someValuesFrom.iri, ValueKind.allValuesFrom.iri, ValueKind.hasValue.iri, owlHasSelf,
   owlMaxCardinality, owlMaxQualifiedCardinality, ListKind.intersectionOf.iri,
   ListKind.unionOf.iri, owlComplementOf, ListKind.oneOf.iri, PairKind.disjointWith.iri,
   owlDifferentFrom]

/-- `isSchemaTriple`. -/
def isSchemaTriple (t : Triple) : Bool :=
  if t.predicate = rdfType then decide (t.object ∈ schemaClasses.map URIRefOf.toTerm)
  else decide (t.predicate ∈ schemaPredicates)

end Reasoning

end GoRdf
