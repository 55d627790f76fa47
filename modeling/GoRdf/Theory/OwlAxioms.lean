import GoRdf.Theory.OwlIndex

/-!
# Axioms the OWL Indexes Hold

When the indexes of a graph hold nothing but axioms of the graph (`FilesWhole`), and
that they speak about its terms.

A list goes wrong in two ways. `collectList` returns what it has walked when a cell
has no rest, when the rest is a literal and when a cell comes up again, and the
chains and keys keep the IRIs among the members and drop the others. What is then
filed is a part of a list, and no list of the graph justifies it.

## Main definitions

* `FilesWhole`: What is filed is whole, and counts are written as the rules write
  them.

## Theorems

* `readIndex_le_axiomsOf`: The indexes hold axioms of the graph.
* `within_readIndex`: The indexes hold terms of the graph.
* `Derives.inTerms`: The rules make no new terms.
-/

namespace GoRdf

namespace Reasoning

open Relation

variable {p : URIRef} {S T : Set Triple} {s : Subject} {A : Axioms}

/-! ## What the indexes hold -/

/-- What is filed of a graph is what it says: the lists that are kept were walked to
    their end, with no member left out, and a count of one is written as the rules
    write it. -/
structure FilesWhole (scan : List Triple → List Triple) (old : List Triple) : Prop where
  chains : ∀ e ∈ scanChains scan old, ∃ l, ⟨.uri e.1, owlPropertyChainAxiom, l⟩ ∈ old ∧
    ListOf (known old) l (e.2.map URIRefOf.toTerm)
  keys : ∀ e ∈ scanKeys scan old, ∃ l, ⟨e.1, owlHasKey, l⟩ ∈ old ∧
    ListOf (known old) l (e.2.map URIRefOf.toTerm)
  members : ∀ k, ∀ e ∈ scanMembers scan old k, ∃ l, ⟨e.1, k.iri, l⟩ ∈ old ∧
    ListOf (known old) l e.2
  maxCard : ∀ r ∈ (buildOwlIndexes scan old).restrictions, r.maxCard = 1 →
    ⟨r.node, owlMaxCardinality, count "1"⟩ ∈ old
  maxQualCard : ∀ r ∈ (buildOwlIndexes scan old).restrictions, r.maxQualCard = 1 →
    r.onClass ≠ none → ⟨r.node, owlMaxQualifiedCardinality, count "1"⟩ ∈ old

section

variable {scan : List Triple → List Triple} (hscan : ∀ ts, (scan ts).Perm ts)
  {old : List Triple} {S : Set Triple} (hold : known old ⊆ S)

include hscan hold

/-- The indexes hold axioms of every set around the graph. -/
theorem readIndex_le_axiomsOf (h : FilesWhole scan old) :
    (readIndex (buildOwlIndexes scan old)).Le (axiomsOf S) := by
  have hvalue : ∀ {node p o}, firstValue scan old node p = some o → ⟨node, p, o⟩ ∈ S :=
    fun h => hold (mem_of_firstValue hscan h)
  have hfields := fun {x} (hx : x ∈ (buildOwlIndexes scan old).restrictions) =>
    buildRestriction_eq_some.mp ((mem_restrictions hscan).mp hx).2
  constructor
  · exact fun k p hp => hold ((mem_typedNodes hscan).mp hp)
  · exact fun k p q hpq => ((mem_scanPairs hscan).mp hpq).imp (@hold _) (@hold _)
  · exact fun c d hcd => ((mem_scanEquivClass hscan).mp hcd).imp (@hold _) (@hold _)
  · -- Lists are filed whole, or the hypothesis on the files would fail; a part of one would say
    -- something else.
    intro p ps hp
    rcases h.chains _ hp with ⟨l, hl, hlist⟩
    rcases (mem_scanChains hscan).mp hp with ⟨-, -, -, hlen⟩
    exact ⟨l, hold hl, hlist.mono hold, hlen⟩
  · intro c ps hc
    rcases h.keys _ hc with ⟨l, hl, hlist⟩
    rcases (mem_filed hscan).mp ((Lib.lastWins_sublist _).subset hc) with ⟨-, -, -, hne⟩
    exact ⟨l, hold hl, hlist.mono hold, hne⟩
  · intro k c ms hc
    rcases h.members k _ hc with ⟨l, hl, hlist⟩
    rcases exists_of_mem_scanMembers hscan hc with ⟨-, -, -, hne⟩
    exact ⟨l, hold hl, hlist.mono hold, hne⟩
  · rintro k r p y ⟨x, hx, rfl, rfl, hy⟩
    rcases hfields hx with ⟨hp, heq⟩
    rw [heq] at hy
    exact ⟨hvalue hp, hvalue hy⟩
  · rintro r p ⟨x, hx, rfl, rfl, hone⟩
    exact ⟨hvalue (hfields hx).1, hold (h.maxCard x hx hone)⟩
  · rintro r p c ⟨x, hx, rfl, rfl, hone, hc⟩
    rcases hfields hx with ⟨hp, heq⟩
    have hcount := h.maxQualCard x hx hone (by simp [hc])
    rw [heq] at hc
    exact ⟨hvalue hp, hold hcount, hvalue hc⟩
  · intro a b hab
    exact EqvGen.mono (fun _ _ he => Edge.mono hold he) _ _
      ((find_buildOwlIndexes hscan).mp hab)

end

/-! ## Terms -/

/-- The axioms speak about the terms `T`. -/
structure Axioms.Within (A : Axioms) (T : List Term) : Prop where
  paired : ∀ {k p q}, A.paired k p q → q.toTerm ∈ T
  equivClass : ∀ {c d}, A.equivClass c d → .subject d ∈ T
  chain : ∀ {p ps}, A.chain p ps → p.toTerm ∈ T
  members : ∀ {k c ms}, A.members k c ms → .subject c ∈ T ∧ ∀ m ∈ ms, m ∈ T
  value : ∀ {k r p y}, A.value k r p y → .subject r ∈ T ∧ p.toTerm ∈ T ∧ y ∈ T
  same : ∀ {a b}, A.same a b → a ≠ b → a ∈ T ∧ b ∈ T

theorem Axioms.Within.mem_of_same {T : List Term} (h : A.Within T) {a b : Term} (hab : A.same a b)
    (ha : a ∈ T) : b ∈ T := by
  by_cases hne : a = b
  · rwa [← hne]
  · exact (h.same hab hne).2

/-- The triples that can be derived from a graph. -/
abbrev Derivable (g : List Triple) : Set Triple :=
  {t | InTerms [rdfType, owlSameAs] g t}

theorem mem_derivable {g : RdfGraph} {o : Term} (hs : .subject s ∈ termsOf g.triples)
    (hp : p ∈ [rdfType, owlSameAs] ++ predicatesOf g.triples) (ho : o ∈ termsOf g.triples) :
    ⟨s, p, o⟩ ∈ Derivable g.triples := by
  have hplain : ∀ o ∈ termsOf g.triples, isPlain o = true := by
    intro o ho
    rcases List.mem_append.mp ho with ho | ho
    · rcases List.mem_map.mp ho with ⟨t, ht, rfl⟩
      exact (g.plain t ht).1
    · rcases List.mem_map.mp ho with ⟨t, ht, rfl⟩
      exact (g.plain t ht).2
  exact ⟨hs, hp, ho, hplain _ hs, hplain _ ho⟩

/-- The rules make no new terms. -/
theorem Derives.inTerms {g : RdfGraph} (hA : A.Within (termsOf g.triples))
    (hS : S ⊆ Derivable g.triples) {t : Triple} (h : Derives A S t) :
    t ∈ Derivable g.triples := by
  have htype : rdfType ∈ [rdfType, owlSameAs] ++ predicatesOf g.triples := by simp
  have hsameAs : owlSameAs ∈ [rdfType, owlSameAs] ++ predicatesOf g.triples := by simp
  have hpredicate : ∀ {p : URIRef}, p.toTerm ∈ termsOf g.triples →
      p ∈ [rdfType, owlSameAs] ++ predicatesOf g.triples := fun h =>
    List.mem_append_right _ (mem_predicatesOf h)
  have hpath : ∀ {x ps z}, Path S x ps z →
      .subject x ∈ termsOf g.triples ∧ z ∈ termsOf g.triples := by
    intro x ps z h
    induction h with
    | last h => exact ⟨(hS h).subject, (hS h).object⟩
    | step h _ ih => exact ⟨(hS h).subject, ih.2⟩
  -- One case for each rule: its conclusion is made of terms of its premises and of the axioms.
  cases h with
  | same h hne =>
    have hterms := hA.same h fun heq => hne (TermOf.subject.inj heq)
    exact mem_derivable hterms.1 hsameAs hterms.2
  | replace hs ho h =>
    exact mem_derivable (hA.mem_of_same hs (hS h).subject) (hS h).predicate
      (hA.mem_of_same ho (hS h).object)
  | symp hp h => exact mem_derivable (hS h).object (hS h).predicate (hS h).subject
  | trp hp h =>
    rcases TransGen.head'_iff.mp h with ⟨_, ⟨s, hs, hfirst⟩, -⟩
    rcases TransGen.tail'_iff.mp h with ⟨_, -, ⟨_, -, hlast⟩⟩
    rw [TermOf.subject.inj hs]
    exact mem_derivable (hS hfirst).subject (hS hfirst).predicate (hS hlast).object
  | inv hp h => exact mem_derivable (hS h).object (hpredicate (hA.paired hp)) (hS h).subject
  | eqp hp h => exact mem_derivable (hS h).subject (hpredicate (hA.paired hp)) (hS h).object
  | eqc hc h => exact mem_derivable (hS h).subject htype (hA.equivClass hc)
  | fp hp hy hz hne => exact mem_derivable (hS hy).object hsameAs (hS hz).object
  | ifp hp hx hy hne => exact mem_derivable (hS hx).subject hsameAs (hS hy).subject
  | chain hp h => exact mem_derivable (hpath h).1 (hpredicate (hA.chain hp)) (hpath h).2
  | key hc hx hy h hne => exact mem_derivable (hS hx).subject hsameAs (hS hy).subject
  | hv1 hr hu =>
    exact mem_derivable (hS hu).subject (hpredicate (hA.value hr).2.1) (hA.value hr).2.2
  | hv2 hr hu | svf1 hr hu hv | svf2 hr hu =>
    exact mem_derivable (hS hu).subject htype (hA.value hr).1
  | avf hr hu hv => exact mem_derivable (hS hv).object htype (hA.value hr).2.2
  | maxc2 hr hu hy hz hne | maxqc3 hr hu hy hyc hz hzc hne | maxqc4 hr hu hy hz hne =>
    exact mem_derivable (hS hy).object hsameAs (hS hz).object
  | int1 hc hms h =>
    rcases List.exists_mem_of_ne_nil _ hms with ⟨m, hm⟩
    exact mem_derivable (hS (h m hm)).subject htype (hA.members hc).1
  | int2 hc h hm => exact mem_derivable (hS h).subject htype ((hA.members hc).2 _ hm)
  | uni hc hm h => exact mem_derivable (hS h).subject htype (hA.members hc).1
  | oo hc hm => exact mem_derivable ((hA.members hc).2 _ hm) htype (hA.members hc).1

section

variable {scan : List Triple → List Triple} (hscan : ∀ ts, (scan ts).Perm ts)
  {g old : List Triple} (hold : ∀ t ∈ old, t ∈ Derivable g)

include hscan hold

theorem mem_termsOf_collectList {l x : Term} (h : x ∈ collectList scan old l) : x ∈ termsOf g := by
  rcases exists_of_mem_collectFrom hscan h with ⟨c, hc⟩
  exact (hold _ hc).object

/-- The indexes hold terms of the graph. -/
theorem within_readIndex : (readIndex (buildOwlIndexes scan old)).Within (termsOf g) := by
  constructor
  · intro k p q hpq
    rcases (mem_scanPairs hscan).mp hpq with h | h
    · exact (hold _ h).object
    · exact (hold _ h).subject
  · intro c d hcd
    rcases (mem_scanEquivClass hscan).mp hcd with h | h
    · exact (hold _ h).object
    · exact (hold _ h).subject
  · intro p ps hp
    rcases (mem_scanChains hscan).mp hp with ⟨l, hl, -⟩
    exact (hold _ hl).subject
  · intro k c ms hc
    rcases exists_of_mem_scanMembers hscan hc with ⟨l, hl, rfl, -⟩
    exact ⟨(hold _ hl).subject, fun m hm => mem_termsOf_collectList hscan hold hm⟩
  · rintro k r p y ⟨x, hx, rfl, rfl, hy⟩
    rcases buildRestriction_eq_some.mp ((mem_restrictions hscan).mp hx).2 with ⟨hp, heq⟩
    have hprop := hold _ (mem_of_firstValue hscan hp)
    rw [heq] at hy
    exact ⟨hprop.subject, hprop.object, (hold _ (mem_of_firstValue hscan hy)).object⟩
  · intro a b hab hne
    have hclass := (find_buildOwlIndexes hscan).mp hab
    have hends : ∀ {c d}, Edge (known old) owlSameAs c d → c ∈ termsOf g ∧ d ∈ termsOf g := by
      rintro c d ⟨s, rfl, hs⟩
      exact ⟨(hold _ hs).subject, (hold _ hs).object⟩
    -- a term that is no term of the graph is alone in its class
    have halone : ∀ {c}, c ∉ termsOf g → (a = c ↔ b = c) := by
      intro c hc
      refine Lib.eqvGen_congr (P := (· = c)) ?_ hclass
      intro x y hxy
      constructor
      · rintro rfl
        exact absurd (hends hxy).1 hc
      · rintro rfl
        exact absurd (hends hxy).2 hc
    constructor
    · by_contra ha
      exact hne ((halone ha).mp rfl).symm
    · by_contra hb
      exact hne ((halone hb).mpr rfl)

end

end Reasoning

end GoRdf
