import GoRdf.Core.OwlRules

/-!
# Inconsistencies

`checkConsistency` of `owlrlEngine`, which runs after the last pass, and the
functions that run the engine: `OWLRLClosureCheck` and `OWLRLClosure`.

The checks use the indexes of the last pass. Several report a pair only in the
order of its keys, so that a pair found both ways is reported once.

## Main definitions

* `Rule`, `Inconsistency`: What is reported.
* `checkConsistency`: The checks.
* `owlrlClosureCheck`: `OWLRLClosureCheck`.
-/

namespace GoRdf

namespace Reasoning

/-- The rules that report an inconsistency. -/
inductive Rule
  | clsNothing2
  | prpIrp
  | prpAsyp
  | prpPdw
  | prpAdp
  | caxDw
  | caxAdc
  | eqDiff1
  | clsCom
  | clsMaxc1
  | clsMaxqc1
  | clsMaxqc2
  | prpNpa1
  | prpNpa2
deriving DecidableEq

/-- `Inconsistency`. -/
structure Inconsistency where
  rule : Rule
  message : List Char
deriving DecidableEq

section

variable (all : List Triple)

/-- cls-nothing2. -/
def checkNothing : List Inconsistency :=
  (instancesOf all owlNothing.toTerm).map fun s =>
    ⟨.clsNothing2, "individual ".toList ++ s.termKey ++ " is typed as owl:Nothing".toList⟩

/-- A space between two texts. -/
def spaced (a b : List Char) : List Char :=
  a ++ ' ' :: b

/-- prp-irp. -/
def checkIrreflexive (idx : OwlIndexes) : List Inconsistency :=
  (all.filter fun t => .uri t.predicate ∈ idx.props .irreflexive ∧
      .subject t.subject = t.object).map fun t =>
    ⟨.prpIrp, spaced t.subject.n3 (spaced t.predicate.n3 (spaced t.object.n3
      "violates irreflexivity".toList))⟩

/-- prp-asyp, for the pair in the order of its keys. -/
def checkAsymmetric (idx : OwlIndexes) : List Inconsistency :=
  (all.filter fun t => .uri t.predicate ∈ idx.props .asymmetric ∧
      (match t.object with
        | .subject o => decide (⟨o, t.predicate, .subject t.subject⟩ ∈ all)
        | .literal _ => false) = true ∧
      keyBefore (.subject t.subject) t.object = true).map fun t =>
    ⟨.prpAsyp, spaced t.subject.n3 (spaced t.predicate.n3 (spaced t.object.n3
      "and reverse violates asymmetry".toList))⟩

/-- prp-pdw, for the pair in the order of its keys. -/
def checkDisjointProps (idx : OwlIndexes) : List Inconsistency :=
  all.flatMap fun t =>
    ((Lib.entries (idx.pairs .propDisjointWith) t.predicate).filter fun q =>
        ⟨t.subject, q, t.object⟩ ∈ all ∧ keyBefore t.predicate.toTerm q.toTerm = true).map
      fun q => ⟨.prpPdw, t.subject.n3 ++ " has disjoint properties ".toList ++ t.predicate.n3 ++
        " and ".toList ++ q.n3 ++ " with same value ".toList ++ t.object.n3⟩

/-- prp-adp, for the positions of a group. -/
def checkAllDisjointProps (idx : OwlIndexes) : List Inconsistency :=
  (idx.allDisjoint .properties).flatMap fun group =>
    (pairsOf group).flatMap fun e =>
      (all.filter fun t => t.predicate = e.1).flatMap fun t =>
        ((objectsOf all t.subject e.2).filter fun o => o = t.object).map fun _ =>
          ⟨.prpAdp, "all-disjoint properties ".toList ++ e.1.n3 ++ " and ".toList ++ e.2.n3 ++
            " share value for same subject".toList⟩

/-- cax-dw, for the pair in the order of its keys. -/
def checkDisjointClasses (idx : OwlIndexes) : List Inconsistency :=
  (all.filter fun t => t.predicate = rdfType).flatMap fun t =>
    match t.object.asURIRef with
    | none => []
    | some c =>
      ((Lib.entries (idx.pairs .disjointWith) c).filter fun d =>
          ⟨t.subject, rdfType, d.toTerm⟩ ∈ all ∧ keyBefore c.toTerm d.toTerm = true).map
        fun d => ⟨.caxDw, "individual ".toList ++ t.subject.termKey ++
          " is member of disjoint classes ".toList ++ c.termKey ++ " and ".toList ++ d.termKey⟩

/-- cax-adc, for the individuals with two classes of a group. -/
def checkAllDisjointClasses (idx : OwlIndexes) : List Inconsistency :=
  (idx.allDisjoint .classes).flatMap fun group =>
    ((all.filter fun t => t.predicate = rdfType).map fun t => t.subject).dedup.filterMap fun s =>
      match group.filter fun c => hasType all (.subject s) c.toTerm with
      | c :: d :: _ =>
        some ⟨.caxAdc, "individual ".toList ++ s.termKey ++
          " is member of multiple all-disjoint classes: ".toList ++ c.n3 ++ ", ".toList ++ d.n3⟩
      | _ => none

/-- eq-diff1, for the pair in the order of its keys. -/
def checkDifferent (idx : OwlIndexes) : List Inconsistency :=
  if idx.uf.members = [] then []
  else
    (idx.differentFrom.filter fun e =>
        idx.uf.find e.1 = idx.uf.find e.2 ∧ keyBefore e.1 e.2 = true).map fun e =>
      ⟨.eqDiff1, e.1.termKey ++ " is both owl:sameAs and owl:differentFrom ".toList ++
        e.2.termKey⟩

/-- cls-com. -/
def checkComplement (idx : OwlIndexes) : List Inconsistency :=
  idx.complementOf.flatMap fun e =>
    ((instancesOf all (.subject e.1)).filter fun s => hasType all (.subject s) e.2).map fun s =>
      ⟨.clsCom, "individual ".toList ++ s.termKey ++
        " is member of complementary classes ".toList ++ e.1.termKey ++ " and ".toList ++
        e.2.termKey⟩

/-- cls-maxc1. -/
def checkMaxCard (r : OwlRestriction) : List Inconsistency :=
  if r.maxCard = 0 then
    ((instancesOf all (.subject r.node)).filter fun u => objectsOf all u r.onProperty ≠ []).map
      fun u => ⟨.clsMaxc1, "individual ".toList ++ u.termKey ++ " has property ".toList ++
        r.onProperty.n3 ++ " but maxCardinality is 0".toList⟩
  else []

/-- cls-maxqc2 where the class is `owl:Thing`, and cls-maxqc1 otherwise. -/
def checkMaxQualCard (r : OwlRestriction) : List Inconsistency :=
  match r.onClass with
  | none => []
  | some c =>
    if r.maxQualCard = 0 then
      ((instancesOf all (.subject r.node)).filter fun u =>
          (objectsOf all u r.onProperty).any fun o =>
            c = owlThing.toTerm ∨ hasType all o c = true).map fun u =>
        if c = owlThing.toTerm then
          ⟨.clsMaxqc2, "individual ".toList ++ u.termKey ++ " has property ".toList ++
            r.onProperty.n3 ++ " but maxQualifiedCardinality is 0 on owl:Thing".toList⟩
        else
          ⟨.clsMaxqc1, "individual ".toList ++ u.termKey ++ " has property ".toList ++
            r.onProperty.n3 ++
            " to qualified individual but maxQualifiedCardinality is 0".toList⟩
    else []

/-- prp-npa1 and prp-npa2. -/
def checkNegProp (npa : NegPropAssertion) : List Inconsistency :=
  (objectsOf all npa.source npa.property).flatMap fun o =>
    let report := fun rule =>
      [⟨rule, "negative property assertion violated: ".toList ++
        spaced npa.source.n3 (spaced npa.property.n3 o.n3)⟩]
    (if npa.targetI.map .subject = some o then report .prpNpa1 else []) ++
      if npa.targetV = some o then report .prpNpa2 else []

/-- `checkConsistency`. -/
def checkConsistency (idx : OwlIndexes) : List Inconsistency :=
  checkNothing all ++ checkIrreflexive all idx ++ checkAsymmetric all idx ++
    checkDisjointProps all idx ++ checkAllDisjointProps all idx ++ checkDisjointClasses all idx ++
    checkAllDisjointClasses all idx ++ checkDifferent idx ++ checkComplement all idx ++
    (idx.restrictions.flatMap fun r => checkMaxCard all r ++ checkMaxQualCard all r) ++
    idx.negPropAsserts.flatMap (checkNegProp all)

end

/-! ## Running the engines -/

/-- What a run returns, with the graph it leaves. -/
structure Expansion where
  added : Nat
  inconsistencies : List Inconsistency
  graph : List Triple
deriving DecidableEq

/-- `OWLRLClosureCheck`. The order of the reports is not kept. -/
def owlrlClosureCheck (enum : Enumeration) (fuel : Nat) (g : List Triple) : Option Expansion :=
  ((owlEngine enum).run fuel 0 ((owlEngine enum).start g)).map fun st =>
    { added := st.added
      inconsistencies := checkConsistency st.facts st.index
      graph := st.facts }

/-- `OWLRLClosure`. -/
def owlrlClosure (enum : Enumeration) (fuel : Nat) (g : List Triple) :
    Option (Nat × List Triple) :=
  (owlrlClosureCheck enum fuel g).map fun out => (out.added, out.graph)

end Reasoning

end GoRdf
