import GoRdf.Core.OwlIndex

/-!
# The Rules of the OWL Engine

`applyRules` of `owlrlEngine`: what a pass emits for the triples of the graph
and the indexes, and the engine that makes such passes.

Every index a rule builds for itself is a scan of the triples here. The loops
that find the term of a key again, in `termForKey` and in the class rules, find
the term the key was made of, because triples are never removed. A rule that
emits a triple twice emits it once more than it has to: the dedup set keeps one.

## Main definitions

* `objectsOf`, `subjectsOf`: The indexes of the triples of a pass.
* `applyEqualityRules`, `applyPropertyRules`, `applyClassRules`: The rules.
* `owlEngine`: The engine.
-/

namespace GoRdf

namespace Reasoning

/-- The loops over the positions `i < j` of a slice. -/
def pairsOf {α : Type} (l : List α) : List (α × α) :=
  (List.sublistsLen 2 l).filterMap fun
    | [a, b] => some (a, b)
    | _ => none

section

variable (all : List Triple)

/-- The objects of a subject and a property, as `propObjs` files them. -/
def objectsOf (s : Subject) (p : URIRef) : List Term :=
  (all.filter fun t => t.subject = s ∧ t.predicate = p).map fun t => t.object

/-- The subjects of a property and an object, as `propSubjs` files them. -/
def subjectsOf (p : URIRef) (o : Term) : List Subject :=
  (all.filter fun t => t.predicate = p ∧ t.object = o).map fun t => t.subject

/-- `typeIndex`: the subjects that have a type. -/
def instancesOf (c : Term) : List Subject :=
  subjectsOf all rdfType c

/-- `typeIndex`, asked for a term. A literal has no type. -/
def hasType (o c : Term) : Bool :=
  match o with
  | .subject s => decide (⟨s, rdfType, c⟩ ∈ all)
  | .literal _ => false

/-! ## Equality -/

/-- `owl:sameAs` both ways, where both are subjects. -/
def sameBoth (a b : Term) : List Triple :=
  match a.asSubject, b.asSubject with
  | some x, some y => [⟨x, owlSameAs, b⟩, ⟨y, owlSameAs, a⟩]
  | _, _ => []

/-- The first value against each of the others. -/
def sameAsFirst : List Term → List Triple
  | [] => []
  | first :: others => others.flatMap (sameBoth first)

/-- The other members of the class of a term. -/
def equivalents (classes : List (List Term)) (a : Term) : List Term :=
  ((classes.find? fun c => decide (a ∈ c)).getD []).filter (· ≠ a)

/-- What one triple becomes when its ends are replaced, one or both. -/
def substituted (classes : List (List Term)) (t : Triple) : List Triple :=
  let subjects := (equivalents classes (.subject t.subject)).filterMap TermOf.asSubject
  let objects := equivalents classes t.object
  -- eq-rep-s, eq-rep-o, and both at once
  subjects.map (fun s => ⟨s, t.predicate, t.object⟩) ++
  objects.map (fun o => ⟨t.subject, t.predicate, o⟩) ++
  subjects.flatMap fun s => objects.map fun o => ⟨s, t.predicate, o⟩

/-- `applyEqualityRules`. -/
def applyEqualityRules (idx : OwlIndexes) : List Triple :=
  let classes := idx.uf.classes
  -- eq-sym and eq-trans: all pairs of a class
  (classes.flatMap fun c => (pairsOf c).flatMap fun e => sameBoth e.1 e.2) ++
  all.flatMap (substituted classes)

/-! ## Properties -/

/-- The rules of `applyPropertyRules` that look at one triple. -/
def perTriple (idx : OwlIndexes) (t : Triple) : List Triple :=
  -- prp-symp
  (match t.object with
    | .subject o =>
      if .uri t.predicate ∈ idx.props .symmetric then
        [⟨o, t.predicate, .subject t.subject⟩]
      else []
    | .literal _ => []) ++
  -- prp-inv1 and prp-inv2
  (match t.object with
    | .subject o =>
      (Lib.entries (idx.pairs .inverseOf) t.predicate).map fun q => ⟨o, q, .subject t.subject⟩
    | .literal _ => []) ++
  -- prp-eqp1 and prp-eqp2
  (Lib.entries (idx.pairs .equivProp) t.predicate).map (fun q => ⟨t.subject, q, t.object⟩) ++
  -- cax-eqc1 and cax-eqc2
  (match t.object with
    | .subject c =>
      if t.predicate = rdfType then
        (Lib.entries idx.equivClass c).map fun d => ⟨t.subject, rdfType, .subject d⟩
      else []
    | .literal _ => [])

/-- The edges of a property. -/
def edgesOf (p : URIRef) : List (Term × Term) :=
  (all.filter fun t => t.predicate = p).map fun t => (.subject t.subject, t.object)

/-- `applyTransitiveRules`: from every triple of a transitive property, a search
    that starts behind its object. -/
def applyTransitiveRules (idx : OwlIndexes) : List Triple :=
  (all.filter fun t => .uri t.predicate ∈ idx.props .transitive).flatMap fun t =>
    let edges := edgesOf all t.predicate
    (Lib.search edges id (2 * edges.length) [t.object] (Lib.entries edges t.object)).map
      fun o => ⟨t.subject, t.predicate, o⟩

/-- `applyFunctionalRules`: the values of a subject against the first of them. -/
def applyFunctionalRules (idx : OwlIndexes) : List Triple :=
  ((all.filter fun t => .uri t.predicate ∈ idx.props .functional).map
    fun t => (t.predicate, t.subject)).dedup.flatMap
      fun k => sameAsFirst (objectsOf all k.2 k.1)

/-- `applyInverseFunctionalRules`: the subjects of a value against the first. -/
def applyInverseFunctionalRules (idx : OwlIndexes) : List Triple :=
  ((all.filter fun t => .uri t.predicate ∈ idx.props .inverseFunctional).map
    fun t => (t.predicate, t.object)).dedup.flatMap
      fun k => sameAsFirst ((subjectsOf all k.1 k.2).map .subject)

/-- `evalChainStep`. -/
def evalChainStep (resultProp : URIRef) (start : Subject) :
    List URIRef → Subject → List Triple
  | [], _ => []
  | [q], cur => (objectsOf all cur q).map fun o => ⟨start, resultProp, o⟩
  | q :: q' :: rest, cur =>
    (objectsOf all cur q).flatMap fun
      | .subject next => evalChainStep resultProp start (q' :: rest) next
      | .literal _ => []

/-- `evalChain`: every triple of the first property starts a walk. -/
def evalChain (resultProp : URIRef) : List URIRef → List Triple
  | [] => []
  | [q] =>
    (all.filter fun t => t.predicate = q).map fun t => ⟨t.subject, resultProp, t.object⟩
  | q :: q' :: rest =>
    (all.filter fun t => t.predicate = q).flatMap fun t =>
      match t.object with
      | .subject next => evalChainStep all resultProp t.subject (q' :: rest) next
      | .literal _ => []

/-- `applyPropertyChainRules`. -/
def applyPropertyChainRules (idx : OwlIndexes) : List Triple :=
  idx.propChainAxiom.flatMap fun e => evalChain all e.1 e.2

/-- `hasCommonValue`. -/
def hasCommonValue (as bs : List Term) : Bool :=
  bs.any fun b => decide (b ∈ as)

/-- Two instances agree on all key properties. -/
def sameKey (keys : List URIRef) (x y : Subject) : Bool :=
  keys.all fun k => hasCommonValue (objectsOf all x k) (objectsOf all y k)

/-- `applyHasKeyRules`: every pair of instances. -/
def applyHasKeyRules (idx : OwlIndexes) : List Triple :=
  idx.hasKeyIndex.flatMap fun e =>
    (pairsOf (instancesOf all (.subject e.1))).flatMap fun i =>
      if i.1 ≠ i.2 ∧ sameKey all e.2 i.1 i.2 = true then
        sameBoth (.subject i.1) (.subject i.2)
      else []

/-- `applyPropertyRules`. -/
def applyPropertyRules (idx : OwlIndexes) : List Triple :=
  all.flatMap (perTriple idx) ++ applyTransitiveRules all idx ++ applyFunctionalRules all idx ++
    applyInverseFunctionalRules all idx ++ applyPropertyChainRules all idx ++
    applyHasKeyRules all idx

/-! ## Classes -/

/-- cls-hv1 and cls-hv2. -/
def hasValueRules (r : OwlRestriction) : List Triple :=
  match r.values .hasValue with
  | none => []
  | some y =>
    (instancesOf all (.subject r.node)).map (fun u => ⟨u, r.onProperty, y⟩) ++
    (subjectsOf all r.onProperty y).map fun u => ⟨u, rdfType, .subject r.node⟩

/-- cls-svf1, and cls-svf2 where the class is `owl:Thing`. -/
def someValuesRules (r : OwlRestriction) : List Triple :=
  match r.values .someValuesFrom with
  | none => []
  | some c =>
    (all.filter fun t => t.predicate = r.onProperty ∧
        (c = owlThing.toTerm ∨ hasType all t.object c = true)).map
      fun t => ⟨t.subject, rdfType, .subject r.node⟩

/-- cls-avf. -/
def allValuesRules (r : OwlRestriction) : List Triple :=
  match r.values .allValuesFrom with
  | none => []
  | some c =>
    (instancesOf all (.subject r.node)).flatMap fun u =>
      ((objectsOf all u r.onProperty).filterMap TermOf.asSubject).map fun v => ⟨v, rdfType, c⟩

/-- cls-maxc2. -/
def maxCardRules (r : OwlRestriction) : List Triple :=
  if r.maxCard = 1 then
    (instancesOf all (.subject r.node)).flatMap fun u =>
      sameAsFirst (objectsOf all u r.onProperty)
  else []

/-- cls-maxqc3, and cls-maxqc4 where the class is `owl:Thing`. -/
def maxQualCardRules (r : OwlRestriction) : List Triple :=
  match r.onClass with
  | none => []
  | some c =>
    if r.maxQualCard = 1 then
      (instancesOf all (.subject r.node)).flatMap fun u =>
        sameAsFirst ((objectsOf all u r.onProperty).filter fun o =>
          c = owlThing.toTerm ∨ hasType all o c = true)
    else []

/-- cls-int1: the instances of the first member that are instances of all. -/
def intersectionRules (c : Subject) (members : List Term) : List Triple :=
  match members with
  | [] => []
  | first :: _ =>
    ((instancesOf all first).filter fun s =>
        members.all fun m => hasType all (.subject s) m).map
      fun s => ⟨s, rdfType, .subject c⟩

/-- cls-int2. -/
def intersectionMemberRules (c : Subject) (members : List Term) : List Triple :=
  (instancesOf all (.subject c)).flatMap fun s => members.map fun m => ⟨s, rdfType, m⟩

/-- cls-uni: each subject once, whichever members it is an instance of. -/
def unionRules (c : Subject) (members : List Term) : List Triple :=
  ((all.filter fun t => t.predicate = rdfType ∧ t.object ∈ members).map
    fun t => t.subject).dedup.map fun s => ⟨s, rdfType, .subject c⟩

/-- cls-oo, for the members that may be subjects. -/
def oneOfRules (c : Subject) (members : List Term) : List Triple :=
  (members.filterMap TermOf.asSubject).map fun m => ⟨m, rdfType, .subject c⟩

/-- `applyClassRules`. -/
def applyClassRules (idx : OwlIndexes) : List Triple :=
  idx.restrictions.flatMap (hasValueRules all) ++
  idx.restrictions.flatMap (someValuesRules all) ++
  idx.restrictions.flatMap (allValuesRules all) ++
  idx.restrictions.flatMap (maxCardRules all) ++
  idx.restrictions.flatMap (maxQualCardRules all) ++
  ((idx.members .intersectionOf).flatMap fun e => intersectionRules all e.1 e.2) ++
  ((idx.members .intersectionOf).flatMap fun e => intersectionMemberRules all e.1 e.2) ++
  ((idx.members .unionOf).flatMap fun e => unionRules all e.1 e.2) ++
  (idx.members .oneOf).flatMap fun e => oneOfRules e.1 e.2

/-- `applyRules`, before the dedup set. -/
def applyOwlRules (idx : OwlIndexes) : List Triple :=
  applyEqualityRules all idx ++ applyPropertyRules all idx ++ applyClassRules all idx

end

/-- `owlrlEngine`. -/
def owlEngine (enum : Enumeration) : Lib.Engine Triple Key OwlIndexes where
  key := tripleKey
  build n g := buildOwlIndexes (enum.order n) g
  offers n idx g := applyOwlRules (enum.order n g) idx
  schema := isSchemaTriple

end Reasoning

end GoRdf
