import GoRdf.Theory.OwlSpec

/-!
# What the OWL Indexes Read

The indexes of a graph against its axioms.

Every entry of an index comes from triples of the graph, and the lemmas say from
which. The classes of terms are kept in a forest, where a search shortens paths.

## Main definitions

* `SingleValued`: A predicate has one value for a subject.
* `TermUnionFind.Inv`: What the calls on a `unionFind` keep.

## Theorems

* `mem_of_firstValue`, `exists_of_mem_collectFrom`: What is read is in the graph.
* `ListOf.unique`: Where a cell has one member and one rest, it starts one list.
* `find_buildOwlIndexes`: The classes of the index are those of `owl:sameAs`.
* `unionFind_spec`: What `unionFind` keeps through unions, searches and `classes`.
-/

namespace GoRdf

open List

namespace Reasoning

open Relation

variable {p : URIRef} {c s : Subject} {l : Term} {ms : List Term} {ps : List URIRef}

/-- The predicate has one value for a subject. -/
def SingleValued (S : Set Triple) (p : URIRef) : Prop :=
  ∀ ⦃s x y⦄, ⟨s, p, x⟩ ∈ S → ⟨s, p, y⟩ ∈ S → x = y

section

variable {scan : List Triple → List Triple} (hscan : ∀ ts, (scan ts).Perm ts)
  {old : List Triple}

include hscan

/-! ## Scans -/

theorem mem_triplesWith {t : Triple} : t ∈ triplesWith scan old p ↔ t ∈ old ∧ t.predicate = p := by
  unfold triplesWith
  rw [(hscan _).mem_iff, mem_filter, decide_eq_true_eq]

theorem mem_of_firstValue {o : Term} (h : firstValue scan old s p = some o) : ⟨s, p, o⟩ ∈ old := by
  unfold firstValue at h
  rcases Option.map_eq_some_iff.mp h with ⟨⟨s', p', o'⟩, hhead, rfl⟩
  have hmem := (hscan _).mem_iff.mp (mem_of_mem_head? hhead)
  simp only [mem_filter, decide_eq_true_eq] at hmem
  rcases hmem with ⟨hold, rfl, rfl⟩
  exact hold

theorem mem_typedNodes {c : URIRef} : s ∈ typedNodes scan old c ↔ ⟨s, rdfType, c.toTerm⟩ ∈ old := by
  simp [typedNodes, mem_triplesWith hscan, exists_triple, and_assoc]

/-! ## Lists -/

/-- What is walked are members of cells. -/
theorem exists_of_mem_collectFrom {x : Term} : ∀ {n : Nat} {visited : List Term} {cur : Term},
    x ∈ collectFrom scan old n visited cur → ∃ c, ⟨c, rdfFirst, x⟩ ∈ old
  | 0, _, _, h => by simp [collectFrom] at h
  | n + 1, visited, cur, h => by
    unfold collectFrom at h
    split_ifs at h with hstop
    · simp at h
    · split at h
      · simp at h
      · rename_i node _
        split at h
        · simp at h
        · rename_i firstVal hfirst
          rcases mem_cons.mp h with rfl | h
          · exact ⟨node, mem_of_firstValue hscan hfirst⟩
          · split at h
            · simp at h
            · exact exists_of_mem_collectFrom h

end

section

variable {S : Set Triple} (hfirst : SingleValued S rdfFirst) (hrest : SingleValued S rdfRest)

include hfirst hrest

/-- A cell starts one list. -/
theorem ListOf.unique {ms' : List Term} (h : ListOf S l ms) (h' : ListOf S l ms') : ms = ms' := by
  induction h generalizing ms' with
  | nil =>
    cases h' with
    | nil => rfl
    | cons hc => exact absurd rfl hc
  | cons hc hx hl _ ih =>
    cases h' with
    | nil => exact absurd rfl hc
    | cons _ hx' hl' hms' =>
      rw [hrest hl' hl] at hms'
      rw [hfirst hx hx', ih hms']

end

/-! ## Entries -/

section

variable {scan : List Triple → List Triple} (hscan : ∀ ts, (scan ts).Perm ts)
  {old : List Triple}

/-- The fields of a restriction are the first values of its node. -/
theorem buildRestriction_eq_some {node : Subject} {x : OwlRestriction} :
    buildRestriction scan old node = some x ↔
      firstValue scan old node owlOnProperty = some x.onProperty.toTerm ∧ x =
        { node := node
          onProperty := x.onProperty
          values := fun k => firstValue scan old node k.iri
          maxCard := cardinality (firstValue scan old node owlMaxCardinality)
          maxQualCard := cardinality (firstValue scan old node owlMaxQualifiedCardinality)
          onClass := firstValue scan old node owlOnClass } := by
  unfold buildRestriction
  simp only [Option.map_eq_some_iff, Option.bind_eq_some_iff, asURIRef_eq_some]
  constructor
  · rintro ⟨p, ⟨_, hp, rfl⟩, rfl⟩
    exact ⟨hp, rfl⟩
  · rintro ⟨hp, hx⟩
    exact ⟨x.onProperty, ⟨_, hp, rfl⟩, hx.symm⟩

include hscan

theorem mem_scanPairs {k : PairKind} {q : URIRef} :
    (p, q) ∈ scanPairs scan old k ↔
      ⟨.uri p, k.iri, q.toTerm⟩ ∈ old ∨ ⟨.uri q, k.iri, p.toTerm⟩ ∈ old := by
  unfold scanPairs
  simp only [Lib.mem_fresh_id, mem_flatMap, mem_triplesWith hscan]
  constructor
  · rintro ⟨⟨s, p', o⟩, ⟨ht, rfl⟩, h⟩
    split at h
    · rename_i p₁ q₁ hs ho
      dsimp only at hs ho
      rw [(asURIRef_eq_some _ _).mp ho, hs] at ht
      simp only [mem_cons, Prod.mk.injEq, not_mem_nil, or_false] at h
      rcases h with ⟨rfl, rfl⟩ | ⟨rfl, rfl⟩
      · exact .inl ht
      · exact .inr ht
    · simp at h
  · rintro (h | h)
    · exact ⟨_, ⟨h, rfl⟩, by simp [URIRefOf.toTerm, TermOf.asURIRef]⟩
    · exact ⟨_, ⟨h, rfl⟩, by simp [URIRefOf.toTerm, TermOf.asURIRef]⟩

theorem mem_scanEquivClass {d : Subject} :
    (c, d) ∈ scanEquivClass scan old ↔
      ⟨c, owlEquivalentClass, .subject d⟩ ∈ old ∨ ⟨d, owlEquivalentClass, .subject c⟩ ∈ old := by
  unfold scanEquivClass
  simp only [Lib.mem_fresh_id, mem_flatMap, mem_triplesWith hscan]
  constructor
  · rintro ⟨⟨s, p, o⟩, ⟨ht, rfl⟩, h⟩
    split at h
    · rename_i d' ho
      dsimp only at ho
      rw [(asSubject_eq_some _ _).mp ho] at ht
      simp only [mem_cons, Prod.mk.injEq, not_mem_nil, or_false] at h
      rcases h with ⟨rfl, rfl⟩ | ⟨rfl, rfl⟩
      · exact .inl ht
      · exact .inr ht
    · simp at h
  · rintro (h | h)
    · exact ⟨_, ⟨h, rfl⟩, by simp [TermOf.asSubject]⟩
    · exact ⟨_, ⟨h, rfl⟩, by simp [TermOf.asSubject]⟩

theorem mem_scanChains :
    (p, ps) ∈ scanChains scan old ↔ ∃ l, ⟨.uri p, owlPropertyChainAxiom, l⟩ ∈ old ∧
      collectIRIs scan old l = ps ∧ 2 ≤ ps.length := by
  unfold scanChains
  simp only [mem_filterMap, mem_triplesWith hscan]
  constructor
  · rintro ⟨⟨s, p', l⟩, ⟨ht, rfl⟩, h⟩
    split at h
    · rename_i p₁ hs
      dsimp only at hs h
      split_ifs at h with hlen
      · rcases Prod.mk.inj (Option.some.inj h) with ⟨rfl, rfl⟩
        rw [hs] at ht
        exact ⟨l, ht, rfl, hlen⟩
    · simp at h
  · rintro ⟨l, ht, rfl, hlen⟩
    refine ⟨_, ⟨ht, rfl⟩, ?_⟩
    dsimp only
    rw [if_pos hlen]

/-- The lists filed under a subject, before the last one wins. -/
theorem mem_filed {α : Type} {read : Term → List α} [DecidableEq α] {v : List α} :
    (s, v) ∈ (triplesWith scan old p).filterMap (fun t =>
        if read t.object = [] then none else some (t.subject, read t.object)) ↔
      ∃ l, ⟨s, p, l⟩ ∈ old ∧ read l = v ∧ v ≠ [] := by
  simp only [mem_filterMap, mem_triplesWith hscan]
  constructor
  · rintro ⟨⟨s', p', l⟩, ⟨ht, rfl⟩, h⟩
    split_ifs at h with hempty
    · rcases Prod.mk.inj (Option.some.inj h) with ⟨rfl, rfl⟩
      exact ⟨l, ht, rfl, hempty⟩
  · rintro ⟨l, ht, rfl, hne⟩
    refine ⟨_, ⟨ht, rfl⟩, ?_⟩
    dsimp only
    rw [if_neg hne]

theorem exists_of_mem_scanMembers {k : ListKind} (h : (c, ms) ∈ scanMembers scan old k) :
    ∃ l, ⟨c, k.iri, l⟩ ∈ old ∧ collectList scan old l = ms ∧ ms ≠ [] :=
  (mem_filed hscan).mp ((Lib.lastWins_sublist _).subset h)

/-- The classes of the index are those of `owl:sameAs`. -/
theorem find_buildOwlIndexes {a b : Term} :
    (buildOwlIndexes scan old).uf.find a = (buildOwlIndexes scan old).uf.find b ↔
      EqvGen (Edge (known old) owlSameAs) a b := by
  have hpairs : (fun a b => (a, b) ∈ (triplesWith scan old owlSameAs).map fun t =>
      ((.subject t.subject : Term), t.object)) = Edge (known old) owlSameAs := by
    funext a b
    refine propext ?_
    simp [mem_triplesWith hscan, Edge, exists_triple, and_comm, eq_comm]
  rw [← hpairs]
  exact (Lib.UnionFind.generated_ofPairs _ _).find_iff a b

theorem mem_restrictions {x : OwlRestriction} :
    x ∈ (buildOwlIndexes scan old).restrictions ↔
      ⟨x.node, rdfType, owlRestrictionClass.toTerm⟩ ∈ old ∧
        buildRestriction scan old x.node = some x := by
  show x ∈ (typedNodes scan old owlRestrictionClass).filterMap (buildRestriction scan old) ↔ _
  rw [mem_filterMap]
  constructor
  · rintro ⟨node, hnode, hx⟩
    have heq : x.node = node := by
      rcases Option.map_eq_some_iff.mp hx with ⟨p, -, rfl⟩
      rfl
    rw [heq]
    exact ⟨(mem_typedNodes hscan).mp hnode, hx⟩
  · rintro ⟨hnode, hx⟩
    exact ⟨x.node, (mem_typedNodes hscan).mpr hnode, hx⟩

end

/-! ## Classes of terms -/

/-- The terms of a call. -/
def UnionFindCall.terms : UnionFindCall → List Term
  | union a b => [a, b]
  | find t => [t]

/-- The unions of some calls, by the keys of the terms. -/
def Joined (calls : List UnionFindCall) : Key → Key → Prop :=
  Relation.Map (fun a b => UnionFindCall.union a b ∈ calls) TermOf.termKey TermOf.termKey

/-- The classes are those of the unions so far, and every key has one of its terms filed. -/
structure TermUnionFind.Inv (uf : TermUnionFind) (calls : List UnionFindCall) : Prop where
  generated : uf.forest.Generated (Joined calls)
  nodup : uf.forest.members.Nodup
  filed : ∀ k ∈ uf.forest.members, ∃ t, uf.terms.lookup k = some t ∧ t.termKey = k ∧
    ∃ call ∈ calls, t ∈ call.terms

namespace TermUnionFind

variable {uf : TermUnionFind} {calls : List UnionFindCall}

/-- What is filed under the keys, after a term more has been added. -/
theorem filed_add {P : Term → Prop} (t : Term) (ht : P t)
    (h : ∀ k ∈ uf.forest.members, ∃ u, uf.terms.lookup k = some u ∧ u.termKey = k ∧ P u) :
    ∀ k ∈ (uf.add t).forest.members,
      ∃ u, (uf.add t).terms.lookup k = some u ∧ u.termKey = k ∧ P u := by
  unfold add
  split_ifs with hmem
  · exact h
  · intro k hk
    by_cases heq : k = t.termKey
    · exact ⟨t, by rw [heq, AList.lookup_insert], heq.symm, ht⟩
    · obtain ⟨u, hu⟩ := h k (((Lib.UnionFind.mem_members_add _ _).mp hk).resolve_right heq)
      exact ⟨u, by rw [AList.lookup_insert_ne heq]; exact hu.1, hu.2⟩

theorem forest_add (t : Term) : (uf.add t).forest = uf.forest.add t.termKey := by
  unfold add
  split_ifs with h
  · rw [Lib.UnionFind.add, if_pos (List.contains_iff_mem.mp h)]
  · rfl

/-- Adding the two terms first changes nothing, `union` adds them too. -/
theorem forest_union (a b : Term) : (uf.union a b).forest =
    uf.forest.union (fun k l => decide (k < l)) a.termKey b.termKey := by
  rw [union]
  dsimp only
  rw [forest_add, forest_add, Lib.UnionFind.union_add_add]

theorem Inv.union (h : uf.Inv calls) (a b : Term) :
    (uf.union a b).Inv (calls ++ [.union a b]) where
  generated := by
    have hstep := h.generated.union (fun k l => decide (k < l)) a.termKey b.termKey
    rw [forest_union]
    -- The forest works on keys; the joined pairs of keys are those of the joined terms.
    refine Lib.UnionFind.Generated.congr hstep fun k l => ?_
    simp only [Joined, Relation.Map, mem_append, mem_singleton, UnionFindCall.union.injEq]
    constructor
    · rintro (⟨c, d, hcd, rfl, rfl⟩ | ⟨rfl, rfl⟩)
      · exact ⟨c, d, .inl hcd, rfl, rfl⟩
      · exact ⟨a, b, .inr ⟨rfl, rfl⟩, rfl, rfl⟩
    · rintro ⟨c, d, hcd | ⟨rfl, rfl⟩, rfl, rfl⟩
      · exact .inl ⟨c, d, hcd, rfl, rfl⟩
      · exact .inr ⟨rfl, rfl⟩
  nodup := by
    rw [forest_union]
    exact Lib.UnionFind.nodup_union h.nodup _ _
  filed := by
    have hmem : ∀ t ∈ (UnionFindCall.union a b).terms,
        ∃ call ∈ calls ++ [.union a b], t ∈ call.terms := fun t ht =>
      ⟨_, mem_append_right _ (mem_singleton_self _), ht⟩
    intro k hk
    rw [forest_union, Lib.UnionFind.mem_members_union] at hk
    refine filed_add b (hmem b (by simp [UnionFindCall.terms]))
      (filed_add a (hmem a (by simp [UnionFindCall.terms])) fun k hk => ?_) k ?_
    · obtain ⟨u, hu, hkey, call, hcall, hterm⟩ := h.filed k hk
      exact ⟨u, hu, hkey, call, mem_append_left _ hcall, hterm⟩
    · rw [forest_add, forest_add]
      exact hk

theorem Inv.find (h : uf.Inv calls) (t : Term) : (uf.find t).2.Inv (calls ++ [.find t]) := by
  have hjoined : Joined (calls ++ [.find t]) = Joined calls := by
    simp [Joined]
  have hfiled : ∀ k ∈ uf.forest.members, ∃ u, uf.terms.lookup k = some u ∧ u.termKey = k ∧
      ∃ call ∈ calls ++ [.find t], u ∈ call.terms := by
    intro k hk
    obtain ⟨u, hu, hkey, call, hcall, hterm⟩ := h.filed k hk
    exact ⟨u, hu, hkey, call, mem_append_left _ hcall, hterm⟩
  rw [TermUnionFind.find]
  split_ifs
  · refine ⟨?_, ?_, ?_⟩
    · rw [hjoined]
      exact h.generated.findKey _
    · dsimp only
      rw [Lib.UnionFind.members_findKey]
      exact h.nodup
    · dsimp only
      rw [Lib.UnionFind.members_findKey]
      exact hfiled
  · exact ⟨hjoined ▸ h.generated, h.nodup, hfiled⟩

end TermUnionFind

theorem inv_unionFindAfter (calls : List UnionFindCall) : (unionFindAfter calls).Inv calls := by
  induction calls using List.reverseRecOn with
  | nil =>
    have hempty : ∀ k l, False ↔ Joined [] k l := by simp [Joined, Relation.Map]
    exact ⟨Lib.UnionFind.generated_empty.congr hempty, nodup_nil, nofun⟩
  | append_singleton calls call ih =>
    have hstep : unionFindAfter (calls ++ [call]) = call.apply (unionFindAfter calls) := by
      simp [unionFindAfter]
    rw [hstep]
    cases call with
    | union a b => exact ih.union a b
    | find t => exact ih.find t

/-- Whatever the calls and the order of the map, the parents form a forest, also after
    `classes` has gone through it. Two terms have one root when the unions relate them, and
    `classes` lists the classes, after all calls over some terms, exactly when `TermKey`
    tells these terms apart. -/
theorem unionFind_spec (T : Set Term) :
    (∀ calls (keys : {ks : List Key // ks.Perm (unionFindAfter calls).forest.members}) k,
      (∃ r, Lib.UnionFind.Leads (unionFindAfter calls).forest.parent k r) ∧
      ∃ r, Lib.UnionFind.Leads
        ((unionFindAfter calls).forest.groupKeys keys.1).1.parent k r) ∧
    ((∀ calls, (∀ call ∈ calls, ∀ t ∈ UnionFindCall.terms call, t ∈ T) →
        ∀ keys : {ks : List Key // ks.Perm (unionFindAfter calls).forest.members},
        let uf := unionFindAfter calls
        let same := EqvGen fun a b => UnionFindCall.union a b ∈ calls
        (∀ a ∈ T, ∀ b ∈ T,
          (uf.forest.findKey a.termKey).1 = (uf.forest.findKey b.termKey).1 ↔ same a b) ∧
        Lib.ListsClasses same (uf.classes keys.1)) ↔
      T.InjOn TermOf.termKey) := by
  have hranked : ∀ calls, (unionFindAfter calls).forest.WellRanked := fun calls =>
    (inv_unionFindAfter calls).generated.ranked
  refine ⟨fun calls keys k => ?_, fun h a ha b hb heq => ?_, fun hT calls hcalls keys => ?_⟩
  · exact ⟨(hranked calls).exists_leads k,
      (Lib.UnionFind.groupKeys_spec (hranked calls) keys.1).1.exists_leads k⟩
  · -- Before any union, only a term itself has its root.
    have hroot := ((h [] nofun ⟨_, .refl _⟩).1 a ha b hb).mp (by rw [heq])
    exact (Lib.eqvGen_congr (P := (a = ·)) (fun _ _ hab => absurd hab not_mem_nil) hroot).mp rfl
  have hinv := inv_unionFindAfter calls
  have hmem : ∀ a b, UnionFindCall.union a b ∈ calls → a ∈ T ∧ b ∈ T := fun a b hab =>
    ⟨hcalls _ hab a (by simp [UnionFindCall.terms]), hcalls _ hab b (by simp [UnionFindCall.terms])⟩
  refine ⟨fun a ha b hb => ?_, ?_⟩
  · exact (hinv.generated.find_iff _ _).trans (Lib.eqvGen_map_iff hT hmem ha hb)
  · refine (hinv.generated.listsClasses (hranked calls) hinv.nodup keys.2).filterMap hT hmem ?_
    intro c hc k hk
    obtain ⟨-, r, rfl⟩ := (Lib.UnionFind.mem_keyClasses (hranked calls)).mp hc
    obtain ⟨t, ht, hkey, call, hcall, hterm⟩ :=
      hinv.filed k (keys.2.mem_iff.mp (mem_of_mem_filter hk))
    exact ⟨t, hcalls call hcall t hterm, ht, hkey⟩

/-- The terms of a literal with the empty datatype and of the `xsd:string` of its text. -/
def emptyTypedTerm : Term := .literal ⟨"x", .typed ⟨"", rfl⟩ nofun⟩

@[inherit_doc emptyTypedTerm]
def stringTerm : Term := .literal ⟨"x", .typed ⟨xsdString, by decide⟩ nofun⟩

/-- One of them can be told from other terms. -/
theorem unionFind_stringTerm :
    let calls := [UnionFindCall.union stringTerm owlThing.toTerm]
    ((unionFindAfter calls).forest.findKey stringTerm.termKey).1 =
      ((unionFindAfter calls).forest.findKey owlThing.toTerm.termKey).1 := by
  intro calls
  have hT : Set.InjOn TermOf.termKey {t : Term | t ∈ [stringTerm, owlThing.toTerm]} := by
    intro a ha b hb heq
    simp only [Set.mem_ofPred_eq, mem_cons, not_mem_nil, or_false] at ha hb
    rcases ha with rfl | rfl <;> rcases hb with rfl | rfl
    · rfl
    · exact absurd heq (by decide)
    · exact absurd heq (by decide)
    · rfl
  refine (((unionFind_spec _).2.mpr hT calls ?_ ⟨_, .refl _⟩).1 _ (by simp) _ (by simp)).mpr
    (.rel _ _ (by simp [calls]))
  intro call hcall
  rw [mem_singleton.mp hcall]
  exact fun _ => id

/-- Two literals that `literalKey` does not tell apart have one root before any union, and
    joining both to a third term makes a class of two. -/
theorem untypedLiteral_findKey :
    (emptyTypedTerm ≠ stringTerm ∧ (newUnionFind.forest.findKey emptyTypedTerm.termKey).1 =
      (newUnionFind.forest.findKey stringTerm.termKey).1) ∧
    let uf := unionFindAfter [.union emptyTypedTerm owlThing.toTerm,
      .union stringTerm owlThing.toTerm]
    (uf.classes uf.forest.members).map List.length = [2] := by
  decide

end Reasoning

end GoRdf
