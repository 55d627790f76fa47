import GoRdf.Core.OwlCheck
import GoRdf.Theory.Rdfs

/-!
# What a Pass of the OWL Engine Derives

The rules of a pass, apart from how its axioms were read. `Axioms` says what is
known about properties, classes and equality, and `Derives` is one step of the
rules from a set of triples under such axioms. A pass offers only what its
indexes derive.

The converse fails, and is not used. Values that have to be equal are only compared
with the first of them, so that a literal that comes first keeps the others from
being compared at all; and the engine has no eq-rep-p.

## Main definitions

* `Axioms`, `readIndex`: What is known, and what the indexes know.
* `Derives`: One step of the rules.

## Theorems

* `derives_of_mem_applyOwlRules`: A pass offers only what its indexes derive.
* `Derives.mono`: More axioms and more triples derive more.
-/

namespace GoRdf

open List TermOf

namespace Reasoning

open Relation

variable {t : Triple} {p : URIRef} {r : OwlRestriction} {a b o : Term} {c s y : Subject}
  {ms : List Term}

/-! ## Axioms -/

/-- What is known about properties, classes and equality. -/
structure Axioms where
  marked : PropertyKind → URIRef → Prop
  paired : PairKind → URIRef → URIRef → Prop
  equivClass : Subject → Subject → Prop
  chain : URIRef → List URIRef → Prop
  key : Subject → List URIRef → Prop
  members : ListKind → Subject → List Term → Prop
  value : ValueKind → Subject → URIRef → Term → Prop
  atMostOne : Subject → URIRef → Prop
  atMostOneOf : Subject → URIRef → Term → Prop
  same : Term → Term → Prop

/-- What the indexes know. -/
def readIndex (idx : OwlIndexes) : Axioms where
  marked k p := .uri p ∈ idx.props k
  paired k p q := (p, q) ∈ idx.pairs k
  equivClass c d := (c, d) ∈ idx.equivClass
  chain p ps := (p, ps) ∈ idx.propChainAxiom
  key c ps := (c, ps) ∈ idx.hasKeyIndex
  members k c ms := (c, ms) ∈ idx.members k
  value k r p y := ∃ x ∈ idx.restrictions, x.node = r ∧ x.onProperty = p ∧ x.values k = some y
  atMostOne r p := ∃ x ∈ idx.restrictions, x.node = r ∧ x.onProperty = p ∧ x.maxCard = 1
  atMostOneOf r p c := ∃ x ∈ idx.restrictions,
    x.node = r ∧ x.onProperty = p ∧ x.maxQualCard = 1 ∧ x.onClass = some c
  same a b := idx.uf.find a = idx.uf.find b

/-- The axioms of `A` are among those of `B`. -/
structure Axioms.Le (A B : Axioms) : Prop where
  marked : ∀ k p, A.marked k p → B.marked k p
  paired : ∀ k p q, A.paired k p q → B.paired k p q
  equivClass : ∀ c d, A.equivClass c d → B.equivClass c d
  chain : ∀ p ps, A.chain p ps → B.chain p ps
  key : ∀ c ps, A.key c ps → B.key c ps
  members : ∀ k c ms, A.members k c ms → B.members k c ms
  value : ∀ k r p y, A.value k r p y → B.value k r p y
  atMostOne : ∀ r p, A.atMostOne r p → B.atMostOne r p
  atMostOneOf : ∀ r p c, A.atMostOneOf r p c → B.atMostOneOf r p c
  same : ∀ a b, A.same a b → B.same a b

/-! ## Steps -/

/-- The triples of a list. -/
abbrev known (all : List Triple) : Set Triple :=
  {t | t ∈ all}

/-- The triple `a p b`, where `a` is any term. -/
def Edge (S : Set Triple) (p : URIRef) (a b : Term) : Prop :=
  ∃ s, a = .subject s ∧ ⟨s, p, b⟩ ∈ S

/-- A walk along a chain of properties. -/
inductive Path (S : Set Triple) : Subject → List URIRef → Term → Prop
  | last {x p z} (h : ⟨x, p, z⟩ ∈ S) : Path S x [p] z
  | step {x p y ps z} (h : ⟨x, p, .subject y⟩ ∈ S) (hrest : Path S y ps z) :
      Path S x (p :: ps) z

/-- One step of the rules. Equal values are different terms, since `x owl:sameAs x`
    is understood. -/
inductive Derives (A : Axioms) (S : Set Triple) : Triple → Prop
  | same {x y} (h : A.same (.subject x) (.subject y)) (hne : x ≠ y) :
      Derives A S ⟨x, owlSameAs, .subject y⟩
  | replace {s s' p o o'} (hs : A.same (.subject s) (.subject s')) (ho : A.same o o')
      (h : ⟨s, p, o⟩ ∈ S) : Derives A S ⟨s', p, o'⟩
  | symp {x p y} (hp : A.marked .symmetric p) (h : ⟨x, p, .subject y⟩ ∈ S) :
      Derives A S ⟨y, p, .subject x⟩
  | trp {x p z} (hp : A.marked .transitive p) (h : TransGen (Edge S p) (.subject x) z) :
      Derives A S ⟨x, p, z⟩
  | inv {x p q y} (hp : A.paired .inverseOf p q) (h : ⟨x, p, .subject y⟩ ∈ S) :
      Derives A S ⟨y, q, .subject x⟩
  | eqp {x p q y} (hp : A.paired .equivProp p q) (h : ⟨x, p, y⟩ ∈ S) :
      Derives A S ⟨x, q, y⟩
  | eqc {x c d} (hc : A.equivClass c d) (h : ⟨x, rdfType, .subject c⟩ ∈ S) :
      Derives A S ⟨x, rdfType, .subject d⟩
  | fp {x p y z} (hp : A.marked .functional p) (hy : ⟨x, p, .subject y⟩ ∈ S)
      (hz : ⟨x, p, .subject z⟩ ∈ S) (hne : y ≠ z) :
      Derives A S ⟨y, owlSameAs, .subject z⟩
  | ifp {x y p o} (hp : A.marked .inverseFunctional p) (hx : ⟨x, p, o⟩ ∈ S)
      (hy : ⟨y, p, o⟩ ∈ S) (hne : x ≠ y) : Derives A S ⟨x, owlSameAs, .subject y⟩
  | chain {x p ps z} (hp : A.chain p ps) (h : Path S x ps z) : Derives A S ⟨x, p, z⟩
  | key {c ps x y} (hc : A.key c ps) (hx : ⟨x, rdfType, .subject c⟩ ∈ S)
      (hy : ⟨y, rdfType, .subject c⟩ ∈ S)
      (h : ∀ p ∈ ps, ∃ z, ⟨x, p, z⟩ ∈ S ∧ ⟨y, p, z⟩ ∈ S) (hne : x ≠ y) :
      Derives A S ⟨x, owlSameAs, .subject y⟩
  | hv1 {r p y u} (hr : A.value .hasValue r p y)
      (hu : ⟨u, rdfType, .subject r⟩ ∈ S) : Derives A S ⟨u, p, y⟩
  | hv2 {r p y u} (hr : A.value .hasValue r p y) (hu : ⟨u, p, y⟩ ∈ S) :
      Derives A S ⟨u, rdfType, .subject r⟩
  | svf1 {r p c u v} (hr : A.value .someValuesFrom r p c) (hu : ⟨u, p, v⟩ ∈ S)
      (hv : Edge S rdfType v c) : Derives A S ⟨u, rdfType, .subject r⟩
  | svf2 {r p u v} (hr : A.value .someValuesFrom r p owlThing.toTerm)
      (hu : ⟨u, p, v⟩ ∈ S) : Derives A S ⟨u, rdfType, .subject r⟩
  | avf {r p c u v} (hr : A.value .allValuesFrom r p c)
      (hu : ⟨u, rdfType, .subject r⟩ ∈ S) (hv : ⟨u, p, .subject v⟩ ∈ S) :
      Derives A S ⟨v, rdfType, c⟩
  | maxc2 {r p u y z} (hr : A.atMostOne r p) (hu : ⟨u, rdfType, .subject r⟩ ∈ S)
      (hy : ⟨u, p, .subject y⟩ ∈ S) (hz : ⟨u, p, .subject z⟩ ∈ S)
      (hne : y ≠ z) : Derives A S ⟨y, owlSameAs, .subject z⟩
  | maxqc3 {r p c u y z} (hr : A.atMostOneOf r p c)
      (hu : ⟨u, rdfType, .subject r⟩ ∈ S)
      (hy : ⟨u, p, .subject y⟩ ∈ S) (hyc : ⟨y, rdfType, c⟩ ∈ S)
      (hz : ⟨u, p, .subject z⟩ ∈ S) (hzc : ⟨z, rdfType, c⟩ ∈ S)
      (hne : y ≠ z) : Derives A S ⟨y, owlSameAs, .subject z⟩
  | maxqc4 {r p u y z} (hr : A.atMostOneOf r p owlThing.toTerm)
      (hu : ⟨u, rdfType, .subject r⟩ ∈ S)
      (hy : ⟨u, p, .subject y⟩ ∈ S) (hz : ⟨u, p, .subject z⟩ ∈ S)
      (hne : y ≠ z) : Derives A S ⟨y, owlSameAs, .subject z⟩
  | int1 {c ms x} (hc : A.members .intersectionOf c ms) (hms : ms ≠ [])
      (h : ∀ m ∈ ms, ⟨x, rdfType, m⟩ ∈ S) : Derives A S ⟨x, rdfType, .subject c⟩
  | int2 {c ms x m} (hc : A.members .intersectionOf c ms)
      (h : ⟨x, rdfType, .subject c⟩ ∈ S) (hm : m ∈ ms) : Derives A S ⟨x, rdfType, m⟩
  | uni {c ms x m} (hc : A.members .unionOf c ms) (hm : m ∈ ms)
      (h : ⟨x, rdfType, m⟩ ∈ S) : Derives A S ⟨x, rdfType, .subject c⟩
  | oo {c ms m} (hc : A.members .oneOf c ms) (hm : .subject m ∈ ms) :
      Derives A S ⟨m, rdfType, .subject c⟩

/-- Chains only ask for triples to be there, so a larger graph has more of them. -/
theorem Path.mono {S T : Set Triple} (hST : S ⊆ T) {x : Subject} {ps : List URIRef} {z : Term}
    (h : Path S x ps z) : Path T x ps z := by
  induction h with
  | last h => exact .last (hST h)
  | step h _ ih => exact .step (hST h) ih

theorem Edge.mono {S T : Set Triple} (hST : S ⊆ T) (h : Edge S p a b) : Edge T p a b := by
  rcases h with ⟨s, rfl, h⟩
  exact ⟨s, rfl, hST h⟩

/-- More axioms and more triples derive more. -/
theorem Derives.mono {A B : Axioms} (hAB : A.Le B) {S T : Set Triple} (hST : S ⊆ T)
    (h : Derives A S t) : Derives B T t := by
  -- Every rule is monotone in its premises, so each case passes them on.
  cases h with
  | same h hne => exact .same (hAB.same _ _ h) hne
  | replace hs ho h => exact .replace (hAB.same _ _ hs) (hAB.same _ _ ho) (hST h)
  | symp hp h => exact .symp (hAB.marked _ _ hp) (hST h)
  | trp hp h =>
    exact .trp (hAB.marked _ _ hp) (TransGen.mono (fun _ _ he => he.mono hST) _ _ h)
  | inv hp h => exact .inv (hAB.paired _ _ _ hp) (hST h)
  | eqp hp h => exact .eqp (hAB.paired _ _ _ hp) (hST h)
  | eqc hc h => exact .eqc (hAB.equivClass _ _ hc) (hST h)
  | fp hp hy hz hne => exact .fp (hAB.marked _ _ hp) (hST hy) (hST hz) hne
  | ifp hp hx hy hne => exact .ifp (hAB.marked _ _ hp) (hST hx) (hST hy) hne
  | chain hp h => exact .chain (hAB.chain _ _ hp) (h.mono hST)
  | key hc hx hy h hne =>
    refine .key (hAB.key _ _ hc) (hST hx) (hST hy) ?_ hne
    intro p hp
    rcases h p hp with ⟨z, hxz, hyz⟩
    exact ⟨z, hST hxz, hST hyz⟩
  | hv1 hr hu => exact .hv1 (hAB.value _ _ _ _ hr) (hST hu)
  | hv2 hr hu => exact .hv2 (hAB.value _ _ _ _ hr) (hST hu)
  | svf1 hr hu hv => exact .svf1 (hAB.value _ _ _ _ hr) (hST hu) (hv.mono hST)
  | svf2 hr hu => exact .svf2 (hAB.value _ _ _ _ hr) (hST hu)
  | avf hr hu hv => exact .avf (hAB.value _ _ _ _ hr) (hST hu) (hST hv)
  | maxc2 hr hu hy hz hne => exact .maxc2 (hAB.atMostOne _ _ hr) (hST hu) (hST hy) (hST hz) hne
  | maxqc3 hr hu hy hyc hz hzc hne =>
    exact .maxqc3 (hAB.atMostOneOf _ _ _ hr) (hST hu) (hST hy) (hST hyc) (hST hz) (hST hzc) hne
  | maxqc4 hr hu hy hz hne =>
    exact .maxqc4 (hAB.atMostOneOf _ _ _ hr) (hST hu) (hST hy) (hST hz) hne
  | int1 hc hms h => exact .int1 (hAB.members _ _ _ hc) hms fun m hm => hST (h m hm)
  | int2 hc h hm => exact .int2 (hAB.members _ _ _ hc) (hST h) hm
  | uni hc hm h => exact .uni (hAB.members _ _ _ hc) hm (hST h)
  | oo hc hm => exact .oo (hAB.members _ _ _ hc) hm

/-! ## Scans of a pass -/

section

variable {all : List Triple}

theorem exists_triple {P : Triple → Prop} : (∃ t, P t) ↔ ∃ s p o, P ⟨s, p, o⟩ :=
  ⟨fun ⟨⟨s, p, o⟩, h⟩ => ⟨s, p, o, h⟩, fun ⟨_, _, _, h⟩ => ⟨_, h⟩⟩

theorem mem_objectsOf : o ∈ objectsOf all s p ↔ ⟨s, p, o⟩ ∈ all := by
  simp [objectsOf, exists_triple, and_assoc]

theorem mem_subjectsOf : s ∈ subjectsOf all p o ↔ ⟨s, p, o⟩ ∈ all := by
  simp [subjectsOf, exists_triple, and_assoc]

theorem mem_instancesOf {c : Term} : s ∈ instancesOf all c ↔ ⟨s, rdfType, c⟩ ∈ all :=
  mem_subjectsOf

theorem hasType_iff {c : Term} : hasType all o c = true ↔ Edge (known all) rdfType o c := by
  cases o with
  | literal l | subject s => simp [hasType, Edge]

/-- A scan shows the one part of a triple that it does not fix. -/
theorem nodup_scan {α : Type} {P : Triple → Prop} [DecidablePred P] {f : Triple → α}
    (hnodup : all.Nodup) (hf : ∀ t u, P t → P u → f t = f u → t = u) :
    ((all.filter P).map f).Nodup := by
  refine List.Nodup.map_on (fun t ht u hu => ?_) (hnodup.filter _)
  exact hf t u (of_decide_eq_true (mem_filter.mp ht).2) (of_decide_eq_true (mem_filter.mp hu).2)

theorem nodup_objectsOf (hnodup : all.Nodup) (s : Subject) (p : URIRef) :
    (objectsOf all s p).Nodup :=
  nodup_scan hnodup fun ⟨_, _, _⟩ ⟨_, _, _⟩ h₁ h₂ heq => by simp_all

theorem nodup_subjectsOf (hnodup : all.Nodup) (p : URIRef) (o : Term) :
    (subjectsOf all p o).Nodup :=
  nodup_scan hnodup fun ⟨_, _, _⟩ ⟨_, _, _⟩ h₁ h₂ heq => by simp_all

theorem mem_edgesOf : (a, b) ∈ edgesOf all p ↔ Edge (known all) p a b := by
  simp [edgesOf, Edge, exists_triple, and_comm, eq_comm]

/-! ## Equal values -/

theorem mem_sameBoth :
    t ∈ sameBoth a b ↔ ∃ x y, a = .subject x ∧ b = .subject y ∧
      (t = ⟨x, owlSameAs, .subject y⟩ ∨ t = ⟨y, owlSameAs, .subject x⟩) := by
  rcases a with x | l <;> rcases b with y | m <;> simp [sameBoth, TermOf.asSubject]

/-- The first value against the others: two different values that are subjects. -/
theorem exists_of_mem_sameAsFirst {vs : List Term} (hnodup : vs.Nodup)
    (h : t ∈ sameAsFirst vs) : ∃ x y, .subject x ∈ vs ∧ .subject y ∈ vs ∧ x ≠ y ∧
      t = ⟨x, owlSameAs, .subject y⟩ := by
  cases vs with
  | nil => simp [sameAsFirst] at h
  | cons v vs =>
    rcases mem_flatMap.mp h with ⟨w, hw, ht⟩
    rcases mem_sameBoth.mp ht with ⟨x, y, rfl, rfl, rfl | rfl⟩
    · refine ⟨x, y, mem_cons_self, mem_cons_of_mem _ hw, ?_, rfl⟩
      rintro rfl
      exact (nodup_cons.mp hnodup).1 hw
    · refine ⟨y, x, mem_cons_of_mem _ hw, mem_cons_self, ?_, rfl⟩
      rintro rfl
      exact (nodup_cons.mp hnodup).1 hw

/-- The nested loops take each pair once, in the order of the list. -/
theorem mem_pairsOf {α : Type} {x y : α} {l : List α} : (x, y) ∈ pairsOf l ↔ [x, y].Sublist l := by
  unfold pairsOf
  rw [mem_filterMap]
  constructor
  · rintro ⟨l', hl', heq⟩
    rcases mem_sublistsLen.mp hl' with ⟨hsub, hlen⟩
    rcases l' with _ | ⟨a, _ | ⟨b, _ | ⟨c, l'⟩⟩⟩ <;> simp at hlen heq
    rw [← heq.1, ← heq.2]
    exact hsub
  · intro h
    exact ⟨[x, y], mem_sublistsLen.mpr ⟨h, rfl⟩, rfl⟩

section

variable {uf : Lib.UnionFind Term}

/-- What the equality rules replace a term by: the others of its class. -/
theorem mem_equivalents (huf : uf.WellRanked) :
    b ∈ equivalents uf.classes a ↔ b ≠ a ∧ uf.find b = uf.find a := by
  unfold equivalents
  rw [mem_filter, decide_eq_true_eq]
  constructor
  · rintro ⟨hb, hne⟩
    refine ⟨hne, ?_⟩
    cases hc : uf.classes.find? fun c => decide (a ∈ c) with
    | none => simp [hc] at hb
    | some c =>
      rw [hc] at hb
      have ha : a ∈ c := by simpa using find?_some hc
      exact Lib.UnionFind.find_of_mem_classes (mem_of_find?_eq_some hc) hb ha
  · rintro ⟨hne, hfind⟩
    refine ⟨?_, hne⟩
    rcases (Lib.UnionFind.mem_classes huf hne).mpr hfind with ⟨c, hc, hbc, hac⟩
    -- the first class that has `a` has `b` too
    cases hfound : uf.classes.find? fun c => decide (a ∈ c) with
    | none =>
      have hnone := find?_eq_none.mp hfound c hc
      simp [hac] at hnone
    | some c' =>
      have ha : a ∈ c' := by simpa using find?_some hfound
      exact Lib.UnionFind.mem_class_of_find (mem_of_find?_eq_some hfound) ha
        (Lib.UnionFind.mem_of_find_eq huf hne hfind) hfind.symm

end

/-! ## What a pass offers -/

section

variable {idx : OwlIndexes}

/-- Within a class everything is the same, and a triple holds of each of its terms. -/
theorem derives_of_mem_applyEqualityRules (huf : idx.uf.WellRanked)
    (hmembers : idx.uf.members.Nodup) (h : t ∈ applyEqualityRules all idx) :
    Derives (readIndex idx) (known all) t := by
  rcases mem_append.mp h with h | h
  · rcases mem_flatMap.mp h with ⟨c, hc, h⟩
    rcases mem_flatMap.mp h with ⟨⟨a, b⟩, hab, h⟩
    have hsub := mem_pairsOf.mp hab
    have hfind : idx.uf.find a = idx.uf.find b :=
      Lib.UnionFind.find_of_mem_classes hc (hsub.subset (by simp)) (hsub.subset (by simp))
    -- A class lists each term once, so a pair has two different terms.
    have hne : a ≠ b := by
      have hnodup := hsub.nodup (Lib.UnionFind.nodup_of_mem_classes hmembers hc)
      simpa using hnodup
    rcases mem_sameBoth.mp h with ⟨x, y, rfl, rfl, rfl | rfl⟩
    · exact .same hfind fun hxy => hne (by rw [hxy])
    · exact .same hfind.symm fun hxy => hne (by rw [hxy])
  · rcases mem_flatMap.mp h with ⟨⟨s, p, o⟩, ht, h⟩
    have hsubject : ∀ s', s' ∈ (equivalents idx.uf.classes (.subject s)).filterMap
        TermOf.asSubject → idx.uf.find (.subject s) = idx.uf.find (.subject s') := by
      intro s' hs'
      rcases mem_filterMap.mp hs' with ⟨a, ha, heq⟩
      rw [(asSubject_eq_some _ _).mp heq] at ha
      exact ((mem_equivalents huf).mp ha).2.symm
    have hobject : ∀ o', o' ∈ equivalents idx.uf.classes o → idx.uf.find o = idx.uf.find o' :=
      fun o' ho' => ((mem_equivalents huf).mp ho').2.symm
    simp only [substituted, mem_append, mem_map, mem_flatMap] at h
    rcases h with (⟨s', hs', rfl⟩ | ⟨o', ho', rfl⟩) | ⟨s', hs', o', ho', rfl⟩
    · exact .replace (hsubject s' hs') rfl ht
    · exact .replace rfl (hobject o' ho') ht
    · exact .replace (hsubject s' hs') (hobject o' ho') ht

/-- The rules that look at one triple only. -/
theorem mem_perTriple :
    t ∈ perTriple idx ⟨s, p, o⟩ ↔
      (∃ y, o = .subject y ∧ .uri p ∈ idx.props .symmetric ∧ t = ⟨y, p, .subject s⟩) ∨
      (∃ y q, o = .subject y ∧ (p, q) ∈ idx.pairs .inverseOf ∧ t = ⟨y, q, .subject s⟩) ∨
      (∃ q, (p, q) ∈ idx.pairs .equivProp ∧ t = ⟨s, q, o⟩) ∨
      ∃ c d, o = .subject c ∧ p = rdfType ∧ (c, d) ∈ idx.equivClass ∧
        t = ⟨s, rdfType, .subject d⟩ := by
  unfold perTriple
  cases o with
  | literal l => simp [Lib.mem_entries, eq_comm]
  | subject y =>
    simp only [mem_append, mem_map, Lib.mem_entries, subject.injEq, or_assoc]
    refine or_congr ?_ (or_congr ?_ (or_congr ?_ ?_))
    · split_ifs with hp <;> simp [hp]
    · simp [eq_comm]
    · simp [eq_comm]
    · split_ifs with hp <;> simp [hp, Lib.mem_entries, eq_comm]

theorem derives_of_mem_perTriple {t u : Triple} (hu : u ∈ all) (h : t ∈ perTriple idx u) :
    Derives (readIndex idx) (known all) t := by
  rcases u with ⟨s, p, o⟩
  rcases mem_perTriple.mp h with ⟨y, rfl, hp, rfl⟩ | ⟨y, q, rfl, hp, rfl⟩ | ⟨q, hp, rfl⟩ |
    ⟨c, d, rfl, rfl, hc, rfl⟩
  · exact .symp hp hu
  · exact .inv hp hu
  · exact .eqp hp hu
  · exact .eqc hc hu

/-- The search behind an object finds what its edges lead to. -/
theorem transGen_of_mem_search {z : Term} {n : Nat} {seen : List Term}
    (h : z ∈ Lib.search (edgesOf all p) id n seen (Lib.entries (edgesOf all p) o)) :
    TransGen (Edge (known all) p) o z := by
  have hreach := Lib.reaches_search (k := o) (fun b hb => .entry hb) z h
  exact (Lib.reaches_iff_transGen (K := fun _ => True) (fun _ _ => trivial)
    (fun _ => Lib.mem_entries.trans mem_edgesOf) trivial).mp hreach

theorem derives_of_mem_applyTransitiveRules (h : t ∈ applyTransitiveRules all idx) :
    Derives (readIndex idx) (known all) t := by
  rcases mem_flatMap.mp h with ⟨⟨s, p, o⟩, hu, h⟩
  rcases mem_map.mp h with ⟨z, hz, rfl⟩
  simp only [mem_filter, decide_eq_true_eq] at hu
  exact .trp hu.2 (.head ⟨s, rfl, hu.1⟩ (transGen_of_mem_search hz))

/-- Two objects of one subject are the same. The list has no repetitions, so the two differ. -/
theorem derives_of_mem_applyFunctionalRules (hnodup : all.Nodup)
    (h : t ∈ applyFunctionalRules all idx) : Derives (readIndex idx) (known all) t := by
  rcases mem_flatMap.mp h with ⟨⟨p, s⟩, hk, h⟩
  rcases mem_map.mp (mem_dedup.mp hk) with ⟨u, hu, heq⟩
  rcases Prod.mk.inj heq with ⟨rfl, rfl⟩
  simp only [mem_filter, decide_eq_true_eq] at hu
  rcases exists_of_mem_sameAsFirst (nodup_objectsOf hnodup _ _) h with ⟨x, y, hx, hy, hne, rfl⟩
  exact .fp hu.2 (mem_objectsOf.mp hx) (mem_objectsOf.mp hy) hne

theorem mem_map_subject {l : List Subject} : (.subject s : Term) ∈ l.map .subject ↔ s ∈ l := by
  simp

theorem derives_of_mem_applyInverseFunctionalRules (hnodup : all.Nodup)
    (h : t ∈ applyInverseFunctionalRules all idx) : Derives (readIndex idx) (known all) t := by
  rcases mem_flatMap.mp h with ⟨⟨p, o⟩, hk, h⟩
  rcases mem_map.mp (mem_dedup.mp hk) with ⟨u, hu, heq⟩
  rcases Prod.mk.inj heq with ⟨rfl, rfl⟩
  simp only [mem_filter, decide_eq_true_eq] at hu
  have hsubjects : ((subjectsOf all u.predicate u.object).map (.subject : Subject → Term)).Nodup :=
    (nodup_subjectsOf hnodup _ _).map fun _ _ => subject.inj
  rcases exists_of_mem_sameAsFirst hsubjects h with ⟨x, y, hx, hy, hne, rfl⟩
  exact .ifp hu.2 (mem_subjectsOf.mp (mem_map_subject.mp hx))
    (mem_subjectsOf.mp (mem_map_subject.mp hy)) hne

theorem mem_evalChainStep {start : Subject} {t : Triple} :
    ∀ {ps : List URIRef} {cur : Subject}, t ∈ evalChainStep all p start ps cur ↔
      ∃ z, Path (known all) cur ps z ∧ t = ⟨start, p, z⟩
  | [], cur => by
    simp only [evalChainStep, not_mem_nil, false_iff]
    rintro ⟨z, hpath, -⟩
    cases hpath
  | [q], cur => by
    simp only [evalChainStep, mem_map, mem_objectsOf]
    constructor
    · rintro ⟨z, hz, rfl⟩
      exact ⟨z, .last hz, rfl⟩
    · rintro ⟨z, hpath, rfl⟩
      cases hpath with
      | last h => exact ⟨z, h, rfl⟩
      | step _ hrest => cases hrest
  | q :: q' :: rest, cur => by
    simp only [evalChainStep, mem_flatMap, mem_objectsOf]
    constructor
    · rintro ⟨o, ho, ht⟩
      cases o with
      -- A literal in the middle of the chain is no subject, and ends it.
      | literal l => simp at ht
      | subject next =>
        rcases mem_evalChainStep.mp ht with ⟨z, hpath, rfl⟩
        exact ⟨z, .step ho hpath, rfl⟩
    · rintro ⟨z, hpath, rfl⟩
      cases hpath with
      | step h hrest => exact ⟨_, h, mem_evalChainStep.mpr ⟨z, hrest, rfl⟩⟩

/-- The first link is read off the triples themselves, so every subject is a start. -/
theorem mem_evalChain {ps : List URIRef} : t ∈ evalChain all p ps ↔
    ∃ x z, Path (known all) x ps z ∧ t = ⟨x, p, z⟩ := by
  have hstep : t ∈ evalChain all p ps ↔ ∃ x, t ∈ evalChainStep all p x ps x := by
    match ps with
    | [] => simp [evalChain, evalChainStep]
    | [q] => simp [evalChain, evalChainStep, mem_objectsOf, exists_triple]
    | q :: q' :: rest =>
      simp [evalChain, evalChainStep, mem_objectsOf, exists_triple, and_assoc]
      rfl
  simp only [hstep, mem_evalChainStep]

theorem derives_of_mem_applyPropertyChainRules
    (h : t ∈ applyPropertyChainRules all idx) : Derives (readIndex idx) (known all) t := by
  rcases mem_flatMap.mp h with ⟨⟨p, ps⟩, hp, h⟩
  rcases mem_evalChain.mp h with ⟨x, z, hpath, rfl⟩
  exact .chain hp hpath

theorem sameKey_iff {keys : List URIRef} {x : Subject} :
    sameKey all keys x y = true ↔ ∀ p ∈ keys, ∃ z, ⟨x, p, z⟩ ∈ all ∧ ⟨y, p, z⟩ ∈ all := by
  simp only [sameKey, hasCommonValue, all_eq_true, any_eq_true, decide_eq_true_eq,
    mem_objectsOf, and_comm]

/-- The test is symmetric, so each pair is tested in one order only. -/
theorem sameKey_comm {keys : List URIRef} {x : Subject} :
    sameKey all keys x y = sameKey all keys y x := by
  rw [Bool.eq_iff_iff, sameKey_iff, sameKey_iff]
  simp only [and_comm]

theorem derives_of_mem_applyHasKeyRules (h : t ∈ applyHasKeyRules all idx) :
    Derives (readIndex idx) (known all) t := by
  rcases mem_flatMap.mp h with ⟨⟨c, keys⟩, hc, h⟩
  rcases mem_flatMap.mp h with ⟨⟨x, y⟩, hxy, h⟩
  have hsub := mem_pairsOf.mp hxy
  have hx := mem_instancesOf.mp (hsub.subset (a := x) (by simp))
  have hy := mem_instancesOf.mp (hsub.subset (a := y) (by simp))
  split_ifs at h with hkey
  · rcases mem_sameBoth.mp h with ⟨x', y', hx', hy', ht⟩
    rcases subject.inj hx' with rfl
    rcases subject.inj hy' with rfl
    rcases ht with rfl | rfl
    · exact .key hc hx hy (sameKey_iff.mp hkey.2) hkey.1
    · exact .key hc hy hx (sameKey_iff.mp (sameKey_comm ▸ hkey.2)) hkey.1.symm
  · simp at h

theorem mem_hasValueRules :
    t ∈ hasValueRules all r ↔ ∃ y, r.values .hasValue = some y ∧
      ((∃ u, ⟨u, rdfType, .subject r.node⟩ ∈ all ∧ t = ⟨u, r.onProperty, y⟩) ∨
        ∃ u, ⟨u, r.onProperty, y⟩ ∈ all ∧ t = ⟨u, rdfType, .subject r.node⟩) := by
  unfold hasValueRules
  cases r.values .hasValue with
  | none => simp
  | some y => simp [mem_instancesOf, mem_subjectsOf, eq_comm]

theorem mem_someValuesRules :
    t ∈ someValuesRules all r ↔ ∃ c, r.values .someValuesFrom = some c ∧
      ∃ u v, ⟨u, r.onProperty, v⟩ ∈ all ∧
        (c = owlThing.toTerm ∨ Edge (known all) rdfType v c) ∧
        t = ⟨u, rdfType, .subject r.node⟩ := by
  unfold someValuesRules
  cases r.values .someValuesFrom with
  | none => simp
  | some c => simp [exists_triple, hasType_iff, and_assoc, @eq_comm _ t]

theorem mem_allValuesRules :
    t ∈ allValuesRules all r ↔ ∃ c, r.values .allValuesFrom = some c ∧
      ∃ u v, ⟨u, rdfType, .subject r.node⟩ ∈ all ∧ ⟨u, r.onProperty, .subject v⟩ ∈ all ∧
        t = ⟨v, rdfType, c⟩ := by
  unfold allValuesRules
  cases r.values .allValuesFrom with
  | none => simp
  | some c => simp [mem_instancesOf, mem_objectsOf, asSubject_eq_some, @eq_comm _ t]

/-- Without members nothing is inferred, though every individual would satisfy them all. -/
theorem mem_intersectionRules :
    t ∈ intersectionRules all c ms ↔ ms ≠ [] ∧
      ∃ x, (∀ m ∈ ms, ⟨x, rdfType, m⟩ ∈ all) ∧ t = ⟨x, rdfType, .subject c⟩ := by
  unfold intersectionRules
  cases ms with
  | nil => simp
  | cons m ms =>
    simp only [mem_map, mem_filter, mem_instancesOf, all_eq_true, hasType]
    constructor
    · rintro ⟨x, ⟨-, hall⟩, rfl⟩
      exact ⟨cons_ne_nil _ _, x, fun m' hm' => by simpa using hall m' hm', rfl⟩
    · rintro ⟨-, x, hall, rfl⟩
      exact ⟨x, ⟨hall m mem_cons_self, fun m' hm' => by simpa using hall m' hm'⟩, rfl⟩

theorem mem_intersectionMemberRules :
    t ∈ intersectionMemberRules all c ms ↔
      ∃ x m, ⟨x, rdfType, .subject c⟩ ∈ all ∧ m ∈ ms ∧ t = ⟨x, rdfType, m⟩ := by
  simp [intersectionMemberRules, mem_instancesOf, eq_comm]

theorem mem_unionRules :
    t ∈ unionRules all c ms ↔
      ∃ x m, m ∈ ms ∧ ⟨x, rdfType, m⟩ ∈ all ∧ t = ⟨x, rdfType, .subject c⟩ := by
  simp only [unionRules, mem_map, mem_dedup, mem_filter, decide_eq_true_eq]
  constructor
  · rintro ⟨_, ⟨⟨x, p, m⟩, ⟨hu, rfl, hm⟩, rfl⟩, rfl⟩
    exact ⟨x, m, hm, hu, rfl⟩
  · rintro ⟨x, m, hm, hu, rfl⟩
    exact ⟨x, ⟨_, ⟨hu, rfl, hm⟩, rfl⟩, rfl⟩

theorem mem_oneOfRules :
    t ∈ oneOfRules c ms ↔ ∃ m, .subject m ∈ ms ∧ t = ⟨m, rdfType, .subject c⟩ := by
  simp [oneOfRules, asSubject_eq_some, @eq_comm _ t]

theorem derives_of_mem_maxCardRules (hnodup : all.Nodup)
    (hr : r ∈ idx.restrictions) (h : t ∈ maxCardRules all r) :
    Derives (readIndex idx) (known all) t := by
  unfold maxCardRules at h
  split_ifs at h with hone
  · rcases mem_flatMap.mp h with ⟨u, hu, h⟩
    rcases exists_of_mem_sameAsFirst (nodup_objectsOf hnodup _ _) h with ⟨x, y, hx, hy, hne, rfl⟩
    exact .maxc2 ⟨r, hr, rfl, rfl, hone⟩ (mem_instancesOf.mp hu) (mem_objectsOf.mp hx)
      (mem_objectsOf.mp hy) hne
  · simp at h

/-- As for the unqualified rule, with the values that are known to be in the class. -/
theorem derives_of_mem_maxQualCardRules (hnodup : all.Nodup)
    (hr : r ∈ idx.restrictions) (h : t ∈ maxQualCardRules all r) :
    Derives (readIndex idx) (known all) t := by
  unfold maxQualCardRules at h
  split at h
  · simp at h
  · rename_i c hc
    split_ifs at h with hone
    · rcases mem_flatMap.mp h with ⟨u, hu, h⟩
      have hu := mem_instancesOf.mp hu
      rcases exists_of_mem_sameAsFirst ((nodup_objectsOf hnodup _ _).filter _) h
        with ⟨x, y, hx, hy, hne, rfl⟩
      simp only [mem_filter, mem_objectsOf, decide_eq_true_eq, hasType_iff] at hx hy
      have hax : (readIndex idx).atMostOneOf r.node r.onProperty c := ⟨r, hr, rfl, rfl, hone, hc⟩
      by_cases hthing : c = owlThing.toTerm
      · rw [hthing] at hax
        exact .maxqc4 hax hu hx.1 hy.1 hne
      · rcases hx.2.resolve_left hthing with ⟨x', hx', hxc⟩
        rcases hy.2.resolve_left hthing with ⟨y', hy', hyc⟩
        rw [← subject.inj hx'] at hxc
        rw [← subject.inj hy'] at hyc
        exact .maxqc3 hax hu hx.1 hxc hy.1 hyc hne
    · simp at h

/-- Every class rule, collected; each has its own case of `Derives`. -/
theorem derives_of_mem_applyClassRules (hnodup : all.Nodup)
    (h : t ∈ applyClassRules all idx) : Derives (readIndex idx) (known all) t := by
  simp only [applyClassRules, mem_append, mem_flatMap, or_assoc] at h
  rcases h with ⟨r, hr, h⟩ | ⟨r, hr, h⟩ | ⟨r, hr, h⟩ | ⟨r, hr, h⟩ | ⟨r, hr, h⟩ |
    ⟨e, he, h⟩ | ⟨e, he, h⟩ | ⟨e, he, h⟩ | ⟨e, he, h⟩
  · rcases mem_hasValueRules.mp h with ⟨y, hy, ⟨u, hu, rfl⟩ | ⟨u, hu, rfl⟩⟩
    · exact .hv1 ⟨r, hr, rfl, rfl, hy⟩ hu
    · exact .hv2 ⟨r, hr, rfl, rfl, hy⟩ hu
  · rcases mem_someValuesRules.mp h with ⟨c, hc, u, v, hu, rfl | hv, rfl⟩
    · exact .svf2 ⟨r, hr, rfl, rfl, hc⟩ hu
    · exact .svf1 ⟨r, hr, rfl, rfl, hc⟩ hu hv
  · rcases mem_allValuesRules.mp h with ⟨c, hc, u, v, hu, hv, rfl⟩
    exact .avf ⟨r, hr, rfl, rfl, hc⟩ hu hv
  · exact derives_of_mem_maxCardRules hnodup hr h
  · exact derives_of_mem_maxQualCardRules hnodup hr h
  · rcases mem_intersectionRules.mp h with ⟨hms, x, hx, rfl⟩
    exact .int1 he hms hx
  · rcases mem_intersectionMemberRules.mp h with ⟨x, m, hx, hm, rfl⟩
    exact .int2 he hx hm
  · rcases mem_unionRules.mp h with ⟨x, m, hm, hx, rfl⟩
    exact .uni he hm hx
  · rcases mem_oneOfRules.mp h with ⟨m, hm, rfl⟩
    exact .oo he hm

/-- A pass offers only what its indexes derive. -/
theorem derives_of_mem_applyOwlRules (huf : idx.uf.WellRanked)
    (hmembers : idx.uf.members.Nodup) (hnodup : all.Nodup)
    (h : t ∈ applyOwlRules all idx) : Derives (readIndex idx) (known all) t := by
  simp only [applyOwlRules, applyPropertyRules, mem_append, or_assoc] at h
  rcases h with h | h | h | h | h | h | h | h
  · exact derives_of_mem_applyEqualityRules huf hmembers h
  · rcases mem_flatMap.mp h with ⟨u, hu, h⟩
    exact derives_of_mem_perTriple hu h
  · exact derives_of_mem_applyTransitiveRules h
  · exact derives_of_mem_applyFunctionalRules hnodup h
  · exact derives_of_mem_applyInverseFunctionalRules hnodup h
  · exact derives_of_mem_applyPropertyChainRules h
  · exact derives_of_mem_applyHasKeyRules h
  · exact derives_of_mem_applyClassRules hnodup h

end

end

end Reasoning

end GoRdf
