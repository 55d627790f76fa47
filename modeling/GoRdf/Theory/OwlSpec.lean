import GoRdf.Theory.OwlRules

/-!
# The OWL 2 RL Rules

The rules the engine documents, as the rule tables of OWL 2 RL state them, and the
least sets of triples they generate.

The tables work on triples in which a literal may be a subject. Conclusions here
are RDF triples, and `owl:sameAs` is read both ways in premises (`Link`), which is
what such triples would add. `x owl:sameAs x` is understood and not concluded. A
list premise is a whole list: a chain of cells that ends in `rdf:nil`.

The rules are those of `Derives`, with the axioms read off the set itself, but for
two differences. `Derives` has no eq-rep-p, and it compares only values that are
subjects.

## Main definitions

* `ListOf`: A whole list.
* `OwlClosed`: The rules.
* `owlLeast`: The least set closed under them.
* `axiomsOf`: The axioms of a set of triples.

## Theorems

* `OwlClosed.mem_of_derives`: A closed set has what its axioms derive.
-/

namespace GoRdf

open TermOf

namespace Reasoning

open Relation

/-! ## Premises -/

/-- `owl:sameAs`, read both ways. -/
def Link (S : Set Triple) (a b : Term) : Prop :=
  Edge S owlSameAs a b ∨ Edge S owlSameAs b a

/-- A whole list, from its first cell to `rdf:nil`. -/
inductive ListOf (S : Set Triple) : Term → List Term → Prop
  | nil : ListOf S rdfNil.toTerm []
  | cons {c x l ms} (hc : c ≠ .uri rdfNil) (hx : ⟨c, rdfFirst, x⟩ ∈ S)
      (hl : ⟨c, rdfRest, l⟩ ∈ S) (hms : ListOf S l ms) :
      ListOf S (.subject c) (x :: ms)

/-- The literal of a cardinality. -/
def count (lexical : String) : Term :=
  .literal ⟨lexical, .typed (uriRef "http://www.w3.org/2001/XMLSchema#nonNegativeInteger")
    fun _ => by decide⟩

theorem ListOf.mono {S T : Set Triple} (hST : S ⊆ T) {l : Term} {ms : List Term}
    (h : ListOf S l ms) : ListOf T l ms := by
  induction h with
  | nil => exact .nil
  | cons hc hx hl _ ih => exact .cons hc (hST hx) (hST hl) ih

/-! ## Rules -/

/-- The rules, one field for each row of the tables. -/
structure OwlClosed (S : Set Triple) : Prop where
  eqSym : ∀ {x y}, ⟨x, owlSameAs, .subject y⟩ ∈ S → ⟨y, owlSameAs, .subject x⟩ ∈ S
  eqTrans : ∀ {x b z}, Link S (.subject x) b → Link S b z → z = .subject x ∨ ⟨x, owlSameAs, z⟩ ∈ S
  eqRepS : ∀ {s s' p o}, Link S (.subject s) (.subject s') → ⟨s, p, o⟩ ∈ S → ⟨s', p, o⟩ ∈ S
  eqRepP : ∀ {s p q o}, Link S p.toTerm q.toTerm → ⟨s, p, o⟩ ∈ S → ⟨s, q, o⟩ ∈ S
  eqRepO : ∀ {s p o o'}, Link S o o' → ⟨s, p, o⟩ ∈ S → ⟨s, p, o'⟩ ∈ S
  prpSymp : ∀ {x p y}, ⟨.uri p, rdfType, PropertyKind.symmetric.iri.toTerm⟩ ∈ S →
    ⟨x, p, .subject y⟩ ∈ S → ⟨y, p, .subject x⟩ ∈ S
  prpTrp : ∀ {x p y z}, ⟨.uri p, rdfType, PropertyKind.transitive.iri.toTerm⟩ ∈ S →
    ⟨x, p, .subject y⟩ ∈ S → ⟨y, p, z⟩ ∈ S → ⟨x, p, z⟩ ∈ S
  prpInv1 : ∀ {x p q y}, ⟨.uri p, PairKind.inverseOf.iri, q.toTerm⟩ ∈ S →
    ⟨x, p, .subject y⟩ ∈ S → ⟨y, q, .subject x⟩ ∈ S
  prpInv2 : ∀ {x p q y}, ⟨.uri p, PairKind.inverseOf.iri, q.toTerm⟩ ∈ S →
    ⟨x, q, .subject y⟩ ∈ S → ⟨y, p, .subject x⟩ ∈ S
  prpEqp1 : ∀ {x p q y}, ⟨.uri p, PairKind.equivProp.iri, q.toTerm⟩ ∈ S →
    ⟨x, p, y⟩ ∈ S → ⟨x, q, y⟩ ∈ S
  prpEqp2 : ∀ {x p q y}, ⟨.uri p, PairKind.equivProp.iri, q.toTerm⟩ ∈ S →
    ⟨x, q, y⟩ ∈ S → ⟨x, p, y⟩ ∈ S
  prpFp : ∀ {x p y z}, ⟨.uri p, rdfType, PropertyKind.functional.iri.toTerm⟩ ∈ S →
    ⟨x, p, .subject y⟩ ∈ S → ⟨x, p, z⟩ ∈ S → z = .subject y ∨ ⟨y, owlSameAs, z⟩ ∈ S
  prpIfp : ∀ {x y p o}, ⟨.uri p, rdfType, PropertyKind.inverseFunctional.iri.toTerm⟩ ∈ S →
    ⟨x, p, o⟩ ∈ S → ⟨y, p, o⟩ ∈ S → x = y ∨ ⟨x, owlSameAs, .subject y⟩ ∈ S
  prpSpo2 : ∀ {p l ps x z}, ⟨.uri p, owlPropertyChainAxiom, l⟩ ∈ S →
    ListOf S l (ps.map URIRefOf.toTerm) → 2 ≤ ps.length → Path S x ps z → ⟨x, p, z⟩ ∈ S
  prpKey : ∀ {c l ps x y}, ⟨c, owlHasKey, l⟩ ∈ S → ListOf S l (ps.map URIRefOf.toTerm) → ps ≠ [] →
    ⟨x, rdfType, .subject c⟩ ∈ S → ⟨y, rdfType, .subject c⟩ ∈ S → (∀ p ∈ ps, ∃ z, ⟨x, p, z⟩ ∈ S ∧
    ⟨y, p, z⟩ ∈ S) → x = y ∨ ⟨x, owlSameAs, .subject y⟩ ∈ S
  caxEqc1 : ∀ {c d x}, ⟨c, owlEquivalentClass, .subject d⟩ ∈ S →
    ⟨x, rdfType, .subject c⟩ ∈ S → ⟨x, rdfType, .subject d⟩ ∈ S
  caxEqc2 : ∀ {c d x}, ⟨c, owlEquivalentClass, .subject d⟩ ∈ S →
    ⟨x, rdfType, .subject d⟩ ∈ S → ⟨x, rdfType, .subject c⟩ ∈ S
  clsHv1 : ∀ {r p y u}, ⟨r, ValueKind.hasValue.iri, y⟩ ∈ S → ⟨r, owlOnProperty, p.toTerm⟩ ∈ S →
    ⟨u, rdfType, .subject r⟩ ∈ S → ⟨u, p, y⟩ ∈ S
  clsHv2 : ∀ {r p y u}, ⟨r, ValueKind.hasValue.iri, y⟩ ∈ S → ⟨r, owlOnProperty, p.toTerm⟩ ∈ S →
    ⟨u, p, y⟩ ∈ S → ⟨u, rdfType, .subject r⟩ ∈ S
  clsSvf1 : ∀ {r p c u v}, ⟨r, ValueKind.someValuesFrom.iri, c⟩ ∈ S →
    ⟨r, owlOnProperty, p.toTerm⟩ ∈ S → ⟨u, p, .subject v⟩ ∈ S → ⟨v, rdfType, c⟩ ∈ S →
    ⟨u, rdfType, .subject r⟩ ∈ S
  clsSvf2 : ∀ {r p u v}, ⟨r, ValueKind.someValuesFrom.iri, owlThing.toTerm⟩ ∈ S →
    ⟨r, owlOnProperty, p.toTerm⟩ ∈ S → ⟨u, p, v⟩ ∈ S → ⟨u, rdfType, .subject r⟩ ∈ S
  clsAvf : ∀ {r p c u v}, ⟨r, ValueKind.allValuesFrom.iri, c⟩ ∈ S →
    ⟨r, owlOnProperty, p.toTerm⟩ ∈ S → ⟨u, rdfType, .subject r⟩ ∈ S → ⟨u, p, .subject v⟩ ∈ S →
    ⟨v, rdfType, c⟩ ∈ S
  clsMaxc2 : ∀ {r p u y z}, ⟨r, owlMaxCardinality, count "1"⟩ ∈ S →
    ⟨r, owlOnProperty, p.toTerm⟩ ∈ S → ⟨u, rdfType, .subject r⟩ ∈ S → ⟨u, p, .subject y⟩ ∈ S →
    ⟨u, p, z⟩ ∈ S → z = .subject y ∨ ⟨y, owlSameAs, z⟩ ∈ S
  clsMaxqc3 : ∀ {r p c u y z}, ⟨r, owlMaxQualifiedCardinality, count "1"⟩ ∈ S →
    ⟨r, owlOnProperty, p.toTerm⟩ ∈ S → ⟨r, owlOnClass, c⟩ ∈ S → ⟨u, rdfType, .subject r⟩ ∈ S →
    ⟨u, p, .subject y⟩ ∈ S → ⟨y, rdfType, c⟩ ∈ S → ⟨u, p, .subject z⟩ ∈ S →
    ⟨z, rdfType, c⟩ ∈ S → y = z ∨ ⟨y, owlSameAs, .subject z⟩ ∈ S
  clsMaxqc4 : ∀ {r p u y z}, ⟨r, owlMaxQualifiedCardinality, count "1"⟩ ∈ S →
    ⟨r, owlOnProperty, p.toTerm⟩ ∈ S → ⟨r, owlOnClass, owlThing.toTerm⟩ ∈ S →
    ⟨u, rdfType, .subject r⟩ ∈ S → ⟨u, p, .subject y⟩ ∈ S → ⟨u, p, z⟩ ∈ S →
    z = .subject y ∨ ⟨y, owlSameAs, z⟩ ∈ S
  clsInt1 : ∀ {c l ms x}, ⟨c, ListKind.intersectionOf.iri, l⟩ ∈ S → ListOf S l ms → ms ≠ [] →
    (∀ m ∈ ms, ⟨x, rdfType, m⟩ ∈ S) → ⟨x, rdfType, .subject c⟩ ∈ S
  clsInt2 : ∀ {c l ms x m}, ⟨c, ListKind.intersectionOf.iri, l⟩ ∈ S → ListOf S l ms →
    ⟨x, rdfType, .subject c⟩ ∈ S → m ∈ ms → ⟨x, rdfType, m⟩ ∈ S
  clsUni : ∀ {c l ms x m}, ⟨c, ListKind.unionOf.iri, l⟩ ∈ S → ListOf S l ms →
    m ∈ ms → ⟨x, rdfType, m⟩ ∈ S → ⟨x, rdfType, .subject c⟩ ∈ S
  clsOo : ∀ {c l ms m}, ⟨c, ListKind.oneOf.iri, l⟩ ∈ S → ListOf S l ms →
    .subject m ∈ ms → ⟨m, rdfType, .subject c⟩ ∈ S

/-! ## Least sets -/

/-- The least set that contains the triples and is closed under the OWL rules. -/
def owlLeast (g : List Triple) : Set Triple :=
  ⋂₀ {S | (∀ t ∈ g, t ∈ S) ∧ OwlClosed S}

/-! ## Axioms of a set -/

/-- The axioms of a set of triples. -/
def axiomsOf (S : Set Triple) : Axioms where
  marked k p := ⟨.uri p, rdfType, k.iri.toTerm⟩ ∈ S
  paired k p q := ⟨.uri p, k.iri, q.toTerm⟩ ∈ S ∨
    ⟨.uri q, k.iri, p.toTerm⟩ ∈ S
  equivClass c d := ⟨c, owlEquivalentClass, .subject d⟩ ∈ S ∨
    ⟨d, owlEquivalentClass, .subject c⟩ ∈ S
  chain p ps := ∃ l, ⟨.uri p, owlPropertyChainAxiom, l⟩ ∈ S ∧
    ListOf S l (ps.map URIRefOf.toTerm) ∧ 2 ≤ ps.length
  key c ps := ∃ l, ⟨c, owlHasKey, l⟩ ∈ S ∧ ListOf S l (ps.map URIRefOf.toTerm) ∧ ps ≠ []
  members k c ms := ∃ l, ⟨c, k.iri, l⟩ ∈ S ∧ ListOf S l ms ∧ ms ≠ []
  value k r p y := ⟨r, owlOnProperty, p.toTerm⟩ ∈ S ∧ ⟨r, k.iri, y⟩ ∈ S
  atMostOne r p := ⟨r, owlOnProperty, p.toTerm⟩ ∈ S ∧
    ⟨r, owlMaxCardinality, count "1"⟩ ∈ S
  atMostOneOf r p c := ⟨r, owlOnProperty, p.toTerm⟩ ∈ S ∧
    ⟨r, owlMaxQualifiedCardinality, count "1"⟩ ∈ S ∧
    ⟨r, owlOnClass, c⟩ ∈ S
  same := EqvGen (Edge S owlSameAs)

section

variable {S : Set Triple}

/-- A term in the class of a subject is it, or it is `owl:sameAs` the term. -/
theorem OwlClosed.sameAs_of_same (hS : OwlClosed S) {x : Subject} {b : Term}
    (h : EqvGen (Edge S owlSameAs) (.subject x) b) :
    b = .subject x ∨ ⟨x, owlSameAs, b⟩ ∈ S := by
  refine (Lib.eqvGen_congr (P := fun c => c = .subject x ∨ ⟨x, owlSameAs, c⟩ ∈ S) ?_ h).mp
    (.inl rfl)
  intro a b hab
  have hlink := hab
  rcases hab with ⟨w, rfl, hwb⟩
  constructor
  · rintro (heq | hxw)
    · rw [← subject.inj heq]
      exact .inr hwb
    · exact hS.eqTrans (.inl ⟨x, rfl, hxw⟩) (.inl hlink)
  · rintro (rfl | hxb)
    · exact .inr (hS.eqSym hwb)
    · exact hS.eqTrans (.inl ⟨x, rfl, hxb⟩) (.inr hlink)

theorem OwlClosed.mem_of_transGen (hS : OwlClosed S) {p : URIRef}
    (hp : ⟨.uri p, rdfType, PropertyKind.transitive.iri.toTerm⟩ ∈ S) {x : Subject}
    {z : Term} (h : TransGen (Edge S p) (.subject x) z) : ⟨x, p, z⟩ ∈ S := by
  induction h with
  | single he =>
    rcases he with ⟨s, heq, he⟩
    rwa [subject.inj heq]
  | tail _ he ih =>
    rcases he with ⟨s, rfl, he⟩
    exact hS.prpTrp hp ih he

/-- A closed set has what its axioms derive. -/
theorem OwlClosed.mem_of_derives (hS : OwlClosed S) {t : Triple} (h : Derives (axiomsOf S) S t) :
    t ∈ S := by
  -- two different subjects that are equal up to `x owl:sameAs x` are related
  have hterm : ∀ {y z : Subject}, y ≠ z →
      (.subject z = (.subject y : Term) ∨ ⟨y, owlSameAs, .subject z⟩ ∈ S) →
      ⟨y, owlSameAs, .subject z⟩ ∈ S := fun hne h =>
    h.resolve_left fun heq => hne (subject.inj heq).symm
  cases h with
  | same h hne => exact hterm hne (hS.sameAs_of_same h)
  | replace hs ho h =>
    rename_i s s' p o o'
    have hs' : ⟨s', p, o⟩ ∈ S := by
      rcases hS.sameAs_of_same hs with heq | hlink
      · rwa [subject.inj heq]
      · exact hS.eqRepS (.inl ⟨s, rfl, hlink⟩) h
    exact (Lib.eqvGen_congr (P := fun c => ⟨s', p, c⟩ ∈ S)
      (fun _ _ hab => ⟨hS.eqRepO (.inl hab), hS.eqRepO (.inr hab)⟩) ho).mp hs'
  | symp hp h => exact hS.prpSymp hp h
  | trp hp h => exact hS.mem_of_transGen hp h
  | inv hp h =>
    rcases hp with hp | hp
    · exact hS.prpInv1 hp h
    · exact hS.prpInv2 hp h
  | eqp hp h =>
    rcases hp with hp | hp
    · exact hS.prpEqp1 hp h
    · exact hS.prpEqp2 hp h
  | eqc hc h =>
    rcases hc with hc | hc
    · exact hS.caxEqc1 hc h
    · exact hS.caxEqc2 hc h
  | fp hp hy hz hne => exact hterm hne (hS.prpFp hp hy hz)
  | ifp hp hx hy hne => exact (hS.prpIfp hp hx hy).resolve_left hne
  | chain hp h =>
    rcases hp with ⟨l, hl, hlist, hlen⟩
    exact hS.prpSpo2 hl hlist hlen h
  | key hc hx hy h hne =>
    rcases hc with ⟨l, hl, hlist, hps⟩
    exact (hS.prpKey hl hlist hps hx hy h).resolve_left hne
  | hv1 hr hu => exact hS.clsHv1 hr.2 hr.1 hu
  | hv2 hr hu => exact hS.clsHv2 hr.2 hr.1 hu
  | svf1 hr hu hv =>
    rcases hv with ⟨v, rfl, hv⟩
    exact hS.clsSvf1 hr.2 hr.1 hu hv
  | svf2 hr hu => exact hS.clsSvf2 hr.2 hr.1 hu
  | avf hr hu hv => exact hS.clsAvf hr.2 hr.1 hu hv
  | maxc2 hr hu hy hz hne => exact hterm hne (hS.clsMaxc2 hr.2 hr.1 hu hy hz)
  | maxqc3 hr hu hy hyc hz hzc hne =>
    exact (hS.clsMaxqc3 hr.2.1 hr.1 hr.2.2 hu hy hyc hz hzc).resolve_left hne
  | maxqc4 hr hu hy hz hne => exact hterm hne (hS.clsMaxqc4 hr.2.1 hr.1 hr.2.2 hu hy hz)
  | int1 hc hms h =>
    rcases hc with ⟨l, hl, hlist, -⟩
    exact hS.clsInt1 hl hlist hms h
  | int2 hc h hm =>
    rcases hc with ⟨l, hl, hlist, -⟩
    exact hS.clsInt2 hl hlist h hm
  | uni hc hm h =>
    rcases hc with ⟨l, hl, hlist, -⟩
    exact hS.clsUni hl hlist hm h
  | oo hc hm =>
    rcases hc with ⟨l, hl, hlist, -⟩
    exact hS.clsOo hl hlist hm

end

end Reasoning

end GoRdf
