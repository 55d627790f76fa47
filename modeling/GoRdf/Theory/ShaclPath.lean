import GoRdf.Core.ShaclPath
import Mathlib.Data.List.Nodup

/-!
# What a Property Path Leads To

`evalPath` against the path relation of SPARQL 1.1.

The evaluation is exact but for three things. The search of a one-or-more path
marks the focus node before it starts, so it never returns it, although a cycle
may lead back. The inverse of a path that is not a predicate is found by trying
the terms of the graph, so it misses a focus node that is not one of them and
that a zero-length path relates to itself. And triple terms have become the term
of no kind, which stands for all of them and is not even equal to itself.
`FoundRel` is the path relation with these restrictions, and `evalPath` computes
it, in a bounded number of steps, on cyclic graphs too (`evalPath_spec`).
`Lossless` follows the evaluation and says that none of the three comes up.

All of this needs keys that tell the terms at hand apart. `TermKey` writes a
literal without marking where its parts end.

## Main definitions

* `DataGraph`: A graph as the validator sees it.
* `PathRel`: The path relation.
* `FoundRel`: The path relation with the restrictions of the evaluation.
* `Lossless`: Nothing is lost on the way from a node.
* `KeysApart`: Keys tell the focus node and the terms of the graph apart.

## Theorems

* `mem_transitiveClose_self`, `mem_transitiveClose_others`: The two closures.
* `evalPath_spec`: `evalPath` lists `FoundRel`.
* `Lossless.foundRel`: Where nothing is lost, that is the path relation.
* `evalPath_exact`: Then each value is listed once.
-/

namespace GoRdf

open List ShaclTerm

namespace Shacl

open Relation

variable {g : List ShaclTriple} {K : ShaclTerm → Prop} {f p : ShaclTerm} {t : ShaclTriple}

/-- A finite graph. Triples are only the same if there was a triple term in them. -/
structure DataGraph where
  triples : List ShaclTriple
  once : triples.Pairwise fun t u => t = u → t.subject = .none ∨ t.object = .none
  predicates : ∀ t ∈ triples, ∃ v, t.predicate = .iri v

/-! ## The relations -/

section

variable (g : List ShaclTriple)

mutual

/-- The pairs a path relates. A zero-length path relates every term to itself. -/
def PathRel : PropertyPath → ShaclTerm → ShaclTerm → Prop
  | .predicate p, s, v => ⟨s, p, v⟩ ∈ g
  | .inverse sub, s, v => PathRel sub v s
  | .sequence elements, s, v => SequenceRel elements s v
  | .alternative elements, s, v => AlternativeRel elements s v
  | .zeroOrMore sub, s, v => ReflTransGen (PathRel sub) s v
  | .oneOrMore sub, s, v => TransGen (PathRel sub) s v
  | .zeroOrOne sub, s, v => v = s ∨ PathRel sub s v

/-- One element after the other. -/
def SequenceRel : List PropertyPath → ShaclTerm → ShaclTerm → Prop
  | [], s, v => v = s
  | elem :: elements, s, v => ∃ m, PathRel elem s m ∧ SequenceRel elements m v

/-- One of the elements. -/
def AlternativeRel : List PropertyPath → ShaclTerm → ShaclTerm → Prop
  | [], _, _ => False
  | elem :: elements, s, v => PathRel elem s v ∨ AlternativeRel elements s v

end

mutual

/-- The pairs of `PathRel` that need no one-or-more path back to its start, and no
    inverse of a path other than a predicate that leads out of the graph or from the
    term of no kind. -/
def FoundRel : PropertyPath → ShaclTerm → ShaclTerm → Prop
  | .predicate p, s, v => ⟨s, p, v⟩ ∈ g
  | .inverse (.predicate p), s, v => ⟨v, p, s⟩ ∈ g
  | .inverse sub, s, v => v ∈ nodesOf g ∧ FoundRel sub v s ∧ s ≠ .none
  | .sequence elements, s, v => FoundSequence elements s v
  | .alternative elements, s, v => FoundAlternative elements s v
  | .zeroOrMore sub, s, v => ReflTransGen (FoundRel sub) s v
  | .oneOrMore sub, s, v => TransGen (FoundRel sub) s v ∧ v ≠ s
  | .zeroOrOne sub, s, v => v = s ∨ FoundRel sub s v

/-- One element after the other. -/
def FoundSequence : List PropertyPath → ShaclTerm → ShaclTerm → Prop
  | [], s, v => v = s
  | elem :: elements, s, v => ∃ m, FoundRel elem s m ∧ FoundSequence elements m v

/-- One of the elements. -/
def FoundAlternative : List PropertyPath → ShaclTerm → ShaclTerm → Prop
  | [], _, _ => False
  | elem :: elements, s, v => FoundRel elem s v ∨ FoundAlternative elements s v

end

/-- Steps lead from a term to one in `T`. -/
def LeadsOn (r : ShaclTerm → ShaclTerm → Prop) (T : ShaclTerm → Prop) (m : ShaclTerm) : Prop :=
  ∃ v, T v ∧ ReflTransGen r m v

mutual

/-- From a node, the evaluation of a path loses none of the values in `T`. No one-or-more
    path leads back to its start, no inverse of a path other than a predicate leads out of
    the graph, and no path goes on from the term of no kind. -/
def Lossless : PropertyPath → ShaclTerm → (ShaclTerm → Prop) → Prop
  | .predicate _, _, _ => True
  | .inverse (.predicate _), _, _ => True
  | .inverse sub, n, T => n ≠ .none ∧ (T n → PathRel g sub n n → n ∈ nodesOf g) ∧
      ∀ v ∈ nodesOf g, T v → Lossless sub v (· = n)
  | .sequence elements, n, T => LosslessSequence elements n T
  | .alternative elements, n, T => LosslessAlternative elements n T
  | .zeroOrMore sub, n, T =>
    ∀ m, ReflTransGen (PathRel g sub) n m → LeadsOn (PathRel g sub) T m →
      m ≠ .none ∧ Lossless sub m fun b => b ≠ m ∧ LeadsOn (PathRel g sub) T b
  | .oneOrMore sub, n, T => (T n → ¬ TransGen (PathRel g sub) n n) ∧
    ∀ m, ReflTransGen (PathRel g sub) n m → LeadsOn (PathRel g sub) T m →
      m ≠ .none ∧ Lossless sub m fun b => b ≠ m ∧ LeadsOn (PathRel g sub) T b
  | .zeroOrOne sub, n, T => Lossless sub n fun v => T v ∧ v ≠ n

/-- `Lossless` from one element to the next, where they lead on to a value in `T`. -/
def LosslessSequence : List PropertyPath → ShaclTerm → (ShaclTerm → Prop) → Prop
  | [], _, _ => True
  | elem :: elements, n, T =>
    Lossless elem n (fun m => ∃ v, T v ∧ SequenceRel g elements m v) ∧
      ∀ m v, PathRel g elem n m → T v → SequenceRel g elements m v →
        (m = .none → elements = []) ∧ LosslessSequence elements m T

/-- `Lossless` for each element. -/
def LosslessAlternative : List PropertyPath → ShaclTerm → (ShaclTerm → Prop) → Prop
  | [], _, _ => True
  | elem :: elements, n, T => Lossless elem n T ∧ LosslessAlternative elements n T

end

end

/-- The inverse of a path that is not a predicate. -/
theorem foundRel_inverse {sub : PropertyPath} (h : ∀ p, sub ≠ .predicate p) (s v : ShaclTerm) :
    FoundRel g (.inverse sub) s v ↔ v ∈ nodesOf g ∧ FoundRel g sub v s ∧ s ≠ .none := by
  cases sub with
  | predicate p => exact absurd rfl (h p)
  | _ => rw [FoundRel]; simp

/-- An inverse of a compound path tries every node of the graph. -/
theorem evalPath_inverse {o : MapOrder} {sub : PropertyPath}
    (h : ∀ p, sub ≠ .predicate p) (focus : ShaclTerm) :
    evalPath o g (.inverse sub) focus =
      (candidates o g).filter fun node => (evalPath o g sub node).any fun v => v.equal focus := by
  cases sub with
  | predicate p => exact absurd rfl (h p)
  | _ => rw [evalPath]; simp

/-! ## The restrictions only take away -/

mutual

/-- What is found is there: the code only loses values. -/
theorem FoundRel.pathRel : ∀ {path : PropertyPath} {s v : ShaclTerm},
    FoundRel g path s v → PathRel g path s v
  | .predicate _, _, _, h => h
  | .inverse sub, _, _, h => by
    by_cases hsub : ∃ p, sub = .predicate p
    · rcases hsub with ⟨p, rfl⟩
      exact h
    · rw [not_exists] at hsub
      rw [PathRel]
      exact FoundRel.pathRel ((foundRel_inverse hsub _ _).mp h).2.1
  | .sequence _, _, _, h => FoundSequence.sequenceRel h
  | .alternative _, _, _, h => FoundAlternative.alternativeRel h
  | .zeroOrMore _, _, _, h => ReflTransGen.mono (fun _ _ h => FoundRel.pathRel h) _ _ h
  | .oneOrMore _, _, _, h => TransGen.mono (fun _ _ h => FoundRel.pathRel h) _ _ h.1
  | .zeroOrOne _, _, _, h => h.imp id FoundRel.pathRel

theorem FoundSequence.sequenceRel :
    ∀ {es : List PropertyPath} {s v : ShaclTerm}, FoundSequence g es s v → SequenceRel g es s v
  | [], _, _, h => h
  | _ :: _, _, _, ⟨m, hm, hv⟩ => ⟨m, FoundRel.pathRel hm, FoundSequence.sequenceRel hv⟩

theorem FoundAlternative.alternativeRel :
    ∀ {es : List PropertyPath} {s v : ShaclTerm},
      FoundAlternative g es s v → AlternativeRel g es s v
  | _ :: _, _, _, h => h.imp FoundRel.pathRel FoundAlternative.alternativeRel

end

/-! ## Where a path leads -/

theorem mem_nodesOf {x : ShaclTerm} : x ∈ nodesOf g ↔ ∃ t ∈ g, x = t.subject ∨ x = t.object := by
  simp [nodesOf, mem_flatMap]

theorem subject_mem_nodesOf (h : t ∈ g) : t.subject ∈ nodesOf g :=
  mem_nodesOf.mpr ⟨t, h, .inl rfl⟩

theorem object_mem_nodesOf (h : t ∈ g) : t.object ∈ nodesOf g :=
  mem_nodesOf.mpr ⟨t, h, .inr rfl⟩

/-- What is known next to a known node. -/
theorem mem_known {n v : ShaclTerm} (hn : n ∈ f :: nodesOf g) (h : v ∈ n :: nodesOf g) :
    v ∈ f :: nodesOf g :=
  cons_subset.mpr ⟨hn, subset_cons_self f _⟩ h

/-! ## Lookups -/

/-- Keys tell the focus node and the terms of the graph apart. -/
def KeysApart (g : List ShaclTriple) (f : ShaclTerm) : Prop :=
  ∀ a ∈ f :: nodesOf g, ∀ b ∈ f :: nodesOf g, a.termKey = b.termKey → a = b

instance (g : List ShaclTriple) (f : ShaclTerm) : Decidable (KeysApart g f) :=
  inferInstanceAs (Decidable (∀ a ∈ f :: nodesOf g, ∀ b ∈ f :: nodesOf g, _ → a = b))

theorem termKey_of_indexKey {a b : ShaclTerm} (h : a.indexKey = b.indexKey) :
    a.termKey = b.termKey := by
  cases a <;> cases b <;> simp_all [indexKey, termKey]

theorem DataGraph.predicate_indexKey_eq_iff (g : DataGraph) (ht : t ∈ g.triples) :
    t.predicate.indexKey = p.indexKey ↔ t.predicate = p := by
  rcases g.predicates t ht with ⟨v, hv⟩
  rw [hv]
  cases p <;> simp [indexKey, String.toList_inj]

theorem equal_iff_of_ne {a b : ShaclTerm} : a.equal b = true ↔ a = b ∧ b ≠ .none := by
  cases a <;> cases b <;> simp [equal, and_assoc]

theorem equal_iff {a b : ShaclTerm} (ha : a ≠ .none) : a.equal b = true ↔ a = b := by
  rw [equal_iff_of_ne]
  exact ⟨And.left, fun h => ⟨h, h ▸ ha⟩⟩

section

variable (g : DataGraph) {f : ShaclTerm} (hkeys : KeysApart g.triples f) {n : ShaclTerm}
  (hn : n ∈ f :: nodesOf g.triples)

include hkeys hn

theorem indexKey_eq_iff {x : ShaclTerm} (hx : x ∈ nodesOf g.triples) :
    x.indexKey = n.indexKey ↔ x = n :=
  ⟨fun h => hkeys x (mem_cons_of_mem _ hx) n hn (termKey_of_indexKey h), fun h => by rw [h]⟩

/-- The index finds the triples of the term, since keys are told apart. -/
theorem mem_lookup_subject :
    t ∈ g.triples.filter (fun t => t.subject.indexKey = n.indexKey ∧
        t.predicate.indexKey = p.indexKey) ↔
      t ∈ g.triples ∧ t.subject = n ∧ t.predicate = p := by
  rw [mem_filter]
  refine and_congr_right fun ht => ?_
  rw [decide_eq_true_eq, indexKey_eq_iff g hkeys hn (subject_mem_nodesOf ht),
    g.predicate_indexKey_eq_iff ht]

theorem mem_lookup_object :
    t ∈ g.triples.filter (fun t => t.predicate.indexKey = p.indexKey ∧
        t.object.indexKey = n.indexKey) ↔
      t ∈ g.triples ∧ t.predicate = p ∧ t.object = n := by
  rw [mem_filter]
  refine and_congr_right fun ht => ?_
  rw [decide_eq_true_eq, indexKey_eq_iff g hkeys hn (object_mem_nodesOf ht),
    g.predicate_indexKey_eq_iff ht]

theorem mem_objectsOf {v : ShaclTerm} : v ∈ objectsOf g.triples n p ↔ ⟨n, p, v⟩ ∈ g.triples := by
  unfold objectsOf
  rw [mem_map]
  constructor
  · rintro ⟨⟨s, q, o⟩, ht, rfl⟩
    rcases (mem_lookup_subject g hkeys hn).mp ht with ⟨hmem, rfl, rfl⟩
    exact hmem
  · intro h
    exact ⟨⟨n, p, v⟩, (mem_lookup_subject g hkeys hn).mpr ⟨h, rfl, rfl⟩, rfl⟩

/-- `Term{}` is a wildcard for the index and may be stored twice, so it is left out. -/
theorem nodup_objectsOf (hnone : n ≠ .none) (p : ShaclTerm)
    (hvalues : .none ∉ objectsOf g.triples n p) : (objectsOf g.triples n p).Nodup := by
  refine pairwise_map.mpr ((g.once.filter _).imp_of_mem ?_)
  rintro ⟨s, q, o⟩ ⟨s', q', o'⟩ ht ht' honce heq
  rcases (mem_lookup_subject g hkeys hn).mp ht with ⟨-, hs, hq⟩
  rcases (mem_lookup_subject g hkeys hn).mp ht' with ⟨-, hs', hq'⟩
  have hvalue : o ∈ objectsOf g.triples n p := mem_map_of_mem ht
  rcases honce (by simp_all) with rfl | rfl
  · exact hnone hs.symm
  · exact hvalues hvalue

theorem mem_subjectsOf {v : ShaclTerm} : v ∈ subjectsOf g.triples p n ↔ ⟨v, p, n⟩ ∈ g.triples := by
  unfold subjectsOf
  rw [mem_map]
  constructor
  · rintro ⟨⟨s, q, o⟩, ht, rfl⟩
    rcases (mem_lookup_object g hkeys hn).mp ht with ⟨hmem, rfl, rfl⟩
    exact hmem
  · intro h
    exact ⟨⟨v, p, n⟩, (mem_lookup_object g hkeys hn).mpr ⟨h, rfl, rfl⟩, rfl⟩

theorem nodup_subjectsOf (hnone : n ≠ .none) (p : ShaclTerm)
    (hvalues : .none ∉ subjectsOf g.triples p n) : (subjectsOf g.triples p n).Nodup := by
  refine pairwise_map.mpr ((g.once.filter _).imp_of_mem ?_)
  rintro ⟨s, q, o⟩ ⟨s', q', o'⟩ ht ht' honce heq
  rcases (mem_lookup_object g hkeys hn).mp ht with ⟨-, hq, ho⟩
  rcases (mem_lookup_object g hkeys hn).mp ht' with ⟨-, hq', ho'⟩
  have hvalue : s ∈ subjectsOf g.triples p n := mem_map_of_mem ht
  rcases honce (by simp_all) with rfl | rfl
  · exact hvalues hvalue
  · exact hnone ho.symm

end

/-! ## The closures -/

section

variable (next : ShaclTerm → List ShaclTerm) (f : ShaclTerm)

/-- How `transitiveClose` starts with the focus node as a result. -/
theorem exploring_self : Lib.Exploring termKey next f
    { visited := [f.termKey], result := [f], queue := [f] } :=
  .start [f] (by simp) (by simp)

/-- How it starts without: the first step is taken before the loop. -/
theorem exploring_others : Lib.Exploring termKey next f
    { visited := (Lib.fresh termKey [f.termKey] (next f)).map termKey ++
        [f.termKey]
      result := Lib.fresh termKey [f.termKey] (next f)
      queue := Lib.fresh termKey [f.termKey] (next f) } :=
  (Lib.Exploring.start [] (by simp) nodup_nil).step rfl

variable {next f} {U : Finset (List Char)}
  (hU : ∀ a, ReflTransGen (fun a b => b ∈ next a) f a → a.termKey ∈ U)
  (hinj : ∀ a b, ReflTransGen (fun a b => b ∈ next a) f a →
    ReflTransGen (fun a b => b ∈ next a) f b → a.termKey = b.termKey → a = b)
  {fuel : Nat} (hfuel : U.card ≤ fuel)

include hU hinj hfuel

/-- With the focus node as the first result, the search finds what zero or more
    steps lead to. -/
theorem mem_transitiveClose_self :
    (transitiveClose fuel next f true).Nodup ∧
      ∀ v, v ∈ transitiveClose fuel next f true ↔ ReflTransGen (fun a b => b ∈ next a) f v := by
  rcases (exploring_self next f).ends hU rfl hfuel with ⟨hend, hqueue⟩
  refine ⟨hend.nodup.of_map _, fun v => ⟨hend.reached v, ?_⟩⟩
  intro hv
  rcases hend.complete hqueue hinj hv with rfl | hv
  · exact Lib.Frontier.result_subset fuel _ v (by simp)
  · exact hv

/-- Without it, the search finds what steps lead to, other than the focus node. -/
theorem mem_transitiveClose_others :
    (transitiveClose fuel next f false).Nodup ∧
      ∀ v, v ∈ transitiveClose fuel next f false ↔
        ReflTransGen (fun a b => b ∈ next a) f v ∧ v ≠ f := by
  have hstart := exploring_others next f
  rcases hstart.ends hU rfl hfuel with ⟨hend, hqueue⟩
  -- The focus node is marked and not a result, and stays so.
  have hself : f ∉ transitiveClose fuel next f false := by
    intro hf
    refine Lib.Frontier.not_mem_result (k := f.termKey) fuel ((hstart.marks _).mpr (.inl rfl)) ?_
      (mem_map_of_mem hf)
    intro hk
    rcases mem_map.mp hk with ⟨b, hb, hkey⟩
    exact (Lib.mem_fresh hb).2 (by rw [hkey]; exact mem_singleton_self _)
  refine ⟨hend.nodup.of_map _, fun v => ⟨?_, ?_⟩⟩
  · intro hv
    exact ⟨hend.reached v hv, fun h => hself (h ▸ hv)⟩
  · rintro ⟨hv, hne⟩
    exact (hend.complete hqueue hinj hv).resolve_left hne

end

/-! ## Known terms -/

/-- Along steps that stay in `K`, one relation may be exchanged for another. -/
theorem reflTransGen_on {α : Type} {r r' : α → α → Prop} {K : α → Prop}
    (hr : ∀ a, K a → ∀ b, r a b → r' a b ∧ K b) {a b : α} (h : ReflTransGen r a b) (ha : K a) :
    ReflTransGen r' a b ∧ K b := by
  induction h with
  | refl => exact ⟨.refl, ha⟩
  | tail _ hstep ih =>
    obtain ⟨hstep, hK⟩ := hr _ ih.2 _ hstep
    exact ⟨.tail ih.1 hstep, hK⟩

section

variable (o : MapOrder) {next : ShaclTerm → List ShaclTerm} {s v : ShaclTerm}

theorem mem_nodesOf_of_mem_candidates (h : v ∈ candidates o g) : v ∈ nodesOf g := by
  have hfresh := (Lib.mem_fresh ((o.terms_perm _).mem_iff.mp h)).1
  rw [mem_reverse] at hfresh
  exact ((o.triples_perm g).flatMap_right _).mem_iff.mp hfresh

theorem mem_nodesOf_of_mem_objectsOf (h : v ∈ objectsOf g s p) : v ∈ nodesOf g := by
  rcases mem_map.mp h with ⟨t, ht, rfl⟩
  exact object_mem_nodesOf (mem_filter.mp ht).1

theorem mem_nodesOf_of_mem_subjectsOf (h : v ∈ subjectsOf g p s) : v ∈ nodesOf g := by
  rcases mem_map.mp h with ⟨t, ht, rfl⟩
  exact subject_mem_nodesOf (mem_filter.mp ht).1

/-- What steps that stay among the nodes of a graph lead to is a node of it. -/
theorem mem_of_steps (hnext : ∀ a, ∀ b ∈ next a, b ∈ a :: nodesOf g) {f v : ShaclTerm}
    (h : ReflTransGen (fun a b => b ∈ next a) f v) : v ∈ f :: nodesOf g :=
  (reflTransGen_on (K := (· ∈ f :: nodesOf g))
    (fun a ha b hab => ⟨hab, mem_known ha (hnext a b hab)⟩) h mem_cons_self).2

/-- The keys of a node and of the graph. -/
def knownKeys (g : List ShaclTriple) (f : ShaclTerm) : Finset (List Char) :=
  ((f :: nodesOf g).map termKey).toFinset

/-- This is the bound of the fuel: a subject and an object per triple, and the focus. -/
theorem card_knownKeys (f : ShaclTerm) : (knownKeys g f).card ≤ 2 * g.length + 1 := by
  refine (toFinset_card_le _).trans ?_
  rw [length_map, length_cons, nodesOf]
  simp [Nat.mul_comm]

theorem knownKeys_of_steps (hnext : ∀ a, ∀ b ∈ next a, b ∈ a :: nodesOf g) {f : ShaclTerm}
    (h : ReflTransGen (fun a b => b ∈ next a) f v) : v.termKey ∈ knownKeys g f :=
  mem_toFinset.mpr (mem_map_of_mem (mem_of_steps hnext h))

/-- Both searches end with an empty queue, and have found only what steps lead to. -/
theorem transitiveClose_ends (hnext : ∀ a, ∀ b ∈ next a, b ∈ a :: nodesOf g) (f : ShaclTerm)
    (self : Bool) {fuel : Nat} (hfuel : 2 * g.length + 1 ≤ fuel) :
    transitiveClose fuel next f self = transitiveClose (2 * g.length + 1) next f self ∧
      ∀ v ∈ transitiveClose fuel next f self, v ∈ f :: nodesOf g := by
  have hU := fun a => knownKeys_of_steps hnext (f := f) (v := a)
  have hsearch : ∀ st, Lib.Exploring termKey next f st → st.queue = st.result →
      (st.advance termKey next fuel).result =
          (st.advance termKey next (2 * g.length + 1)).result ∧
        ∀ v ∈ (st.advance termKey next fuel).result, v ∈ f :: nodesOf g := by
    intro st h hq
    have hend := fun n (hn : 2 * g.length + 1 ≤ n) => h.ends hU hq ((card_knownKeys f).trans hn)
    refine ⟨congrArg Lib.Frontier.result ?_, fun v hv => ?_⟩
    · exact Lib.Frontier.advance_eq_of_le hfuel (hend _ le_rfl).2
    · exact mem_of_steps hnext ((hend _ hfuel).1.reached v hv)
  cases self with
  | true => exact hsearch _ (exploring_self next f) rfl
  | false => exact hsearch _ (exploring_others next f) rfl

mutual

/-- The values of a path are the node it starts from and nodes of the graph. -/
theorem mem_of_mem_evalPath : ∀ (p : PropertyPath) (f v : ShaclTerm), v ∈ evalPath o g p f →
    v ∈ f :: nodesOf g
  | .predicate p, f, v, h => by
    exact mem_cons_of_mem _ (mem_nodesOf_of_mem_objectsOf h)
  | .inverse sub, f, v, h => by
    cases sub with
    | predicate p => exact mem_cons_of_mem _ (mem_nodesOf_of_mem_subjectsOf h)
    | _ =>
      exact mem_cons_of_mem _
        (mem_nodesOf_of_mem_candidates o (mem_filter.mp h).1)
  | .sequence elements, f, v, h => by
    refine mem_of_mem_evalSequencePath elements f [f] ?_ v h
    intro u hu
    rw [mem_singleton.mp hu]
    exact mem_cons_self
  | .alternative elements, f, v, h => by
    rw [evalPath] at h
    exact mem_of_mem_alternatives elements f v (Lib.mem_fresh h).1
  | .zeroOrMore sub, f, v, h => by
    exact (transitiveClose_ends (mem_of_mem_evalPath sub) f true le_rfl).2 v h
  | .oneOrMore sub, f, v, h => by
    rw [evalPath] at h
    exact (transitiveClose_ends (mem_of_mem_evalPath sub) f false le_rfl).2 v h
  | .zeroOrOne sub, f, v, h => by
    rw [evalPath] at h
    rcases mem_cons.mp h with rfl | h
    · exact mem_cons_self
    · exact mem_of_mem_evalPath sub f v (Lib.mem_fresh h).1

theorem mem_of_mem_evalSequencePath : ∀ (ps : List PropertyPath) (f : ShaclTerm)
    (current : List ShaclTerm), (∀ u ∈ current, u ∈ f :: nodesOf g) →
      ∀ v ∈ evalSequencePath o g ps current, v ∈ f :: nodesOf g
  | [], _, _, hcurrent, v, h => by
    exact hcurrent v h
  | p :: ps, f, current, hcurrent, v, h => by
    rw [evalSequencePath] at h
    refine mem_of_mem_evalSequencePath ps f _ ?_ v h
    intro u hu
    rcases mem_flatMap.mp (Lib.mem_fresh hu).1 with ⟨w, hw, huw⟩
    exact mem_known (hcurrent w hw) (mem_of_mem_evalPath p w u huw)

theorem mem_of_mem_alternatives : ∀ (ps : List PropertyPath) (f v : ShaclTerm),
    v ∈ alternatives o g ps f → v ∈ f :: nodesOf g
  | [], _, _, h => by
    rw [alternatives] at h
    cases h
  | p :: ps, f, v, h => by
    rw [alternatives] at h
    rcases mem_append.mp h with h | h
    · exact mem_of_mem_evalPath p f v h
    · exact mem_of_mem_alternatives ps f v h

end

end

/-! ## The evaluation -/

/-- A predicate or its inverse, which is looked up. -/
def PropertyPath.isLookup : PropertyPath → Bool
  | .predicate _ | .inverse (.predicate _) => true
  | _ => false

section

variable (o : MapOrder) (g : DataGraph) {f : ShaclTerm} (hkeys : KeysApart g.triples f)

include hkeys

theorem candidates_spec :
    (candidates o g.triples).Nodup ∧ ∀ v, v ∈ candidates o g.triples ↔ v ∈ nodesOf g.triples := by
  have hnodes : ∀ v, v ∈ (nodesOf (o.triples g.triples)).reverse ↔ v ∈ nodesOf g.triples := by
    intro v
    rw [mem_reverse]
    exact ((o.triples_perm g.triples).flatMap_right _).mem_iff
  constructor
  · exact (o.terms_perm _).nodup_iff.mpr ((Lib.nodup_fresh _ _).of_map _)
  · intro v
    rw [candidates, (o.terms_perm _).mem_iff, Lib.mem_fresh_iff]
    · simp [hnodes]
    · intro a ha b hb
      exact hkeys a (mem_cons_of_mem _ ((hnodes a).mp ha)) b (mem_cons_of_mem _ ((hnodes b).mp hb))

/-- Among known terms, the dedup loops keep every value, once. -/
theorem fresh_spec (seen : List (List Char)) {vs : List ShaclTerm}
    (hvs : ∀ v ∈ vs, v ∈ f :: nodesOf g.triples) :
    (Lib.fresh termKey seen vs).Nodup ∧
      ∀ v, v ∈ Lib.fresh termKey seen vs ↔ v ∈ vs ∧ v.termKey ∉ seen :=
  ⟨(Lib.nodup_fresh _ _).of_map _, fun _ =>
    Lib.mem_fresh_iff fun a ha b hb => hkeys a (hvs a ha) b (hvs b hb)⟩

/-- The two closures of a path whose values at known terms are those of `r`. -/
theorem transitiveClose_spec {next : ShaclTerm → List ShaclTerm}
    {r : ShaclTerm → ShaclTerm → Prop} (hmem : ∀ a, ∀ b ∈ next a, b ∈ a :: nodesOf g.triples)
    (hnext : ∀ a ∈ f :: nodesOf g.triples, ∀ b, b ∈ next a ↔ r a b)
    {n : ShaclTerm} (hn : n ∈ f :: nodesOf g.triples) :
    ((transitiveClose (2 * g.triples.length + 1) next n true).Nodup ∧
      ∀ v, v ∈ transitiveClose (2 * g.triples.length + 1) next n true ↔ ReflTransGen r n v) ∧
    ((transitiveClose (2 * g.triples.length + 1) next n false).Nodup ∧
      ∀ v, v ∈ transitiveClose (2 * g.triples.length + 1) next n false ↔
        TransGen r n v ∧ v ≠ n) := by
  have hknown : ∀ a, ReflTransGen (fun a b => b ∈ next a) n a → a ∈ f :: nodesOf g.triples :=
    fun a ha => mem_known hn (mem_of_steps hmem ha)
  have hinj : ∀ a b, ReflTransGen (fun a b => b ∈ next a) n a →
      ReflTransGen (fun a b => b ∈ next a) n b → a.termKey = b.termKey → a = b :=
    fun a b ha hb => hkeys a (hknown a ha) b (hknown b hb)
  -- Neither relation leaves the known terms, and there they are the same.
  have hchain : ∀ v, ReflTransGen (fun a b => b ∈ next a) n v ↔ ReflTransGen r n v := by
    have hstep : ∀ a ∈ f :: nodesOf g.triples, ∀ b ∈ next a, r a b ∧ b ∈ f :: nodesOf g.triples :=
      fun a ha b hb => ⟨(hnext a ha b).mp hb, mem_known ha (hmem a b hb)⟩
    intro v
    constructor
    · exact fun h => (reflTransGen_on hstep h hn).1
    · refine fun h => (reflTransGen_on (fun a ha b hab => ?_) h hn).1
      have hb := (hnext a ha b).mpr hab
      exact ⟨hb, (hstep a ha b hb).2⟩
  rcases mem_transitiveClose_self (fun a => knownKeys_of_steps hmem) hinj
    (card_knownKeys n) with ⟨hnodup, hself⟩
  rcases mem_transitiveClose_others (fun a => knownKeys_of_steps hmem) hinj
    (card_knownKeys n) with ⟨hnodup', hothers⟩
  refine ⟨⟨hnodup, fun v => (hself v).trans (hchain v)⟩, ⟨hnodup', fun v => ?_⟩⟩
  rw [hothers, hchain, reflTransGen_iff_eq_or_transGen]
  exact ⟨fun h => ⟨h.1.resolve_left h.2, h.2⟩, fun h => ⟨.inr h.1, h.2⟩⟩

end

mutual

/-- From a known term, `evalPath` lists `FoundRel`, each value once if it is more than a
    lookup. -/
theorem evalPath_spec (o : MapOrder) (g : DataGraph) (hkeys : KeysApart g.triples f) :
    ∀ (path : PropertyPath) {n : ShaclTerm},
      n ∈ f :: nodesOf g.triples →
      (path.isLookup = false → (evalPath o g.triples path n).Nodup) ∧
        ∀ v, v ∈ evalPath o g.triples path n ↔ FoundRel g.triples path n v
  | .predicate p, n, hn => by
    exact ⟨Bool.noConfusion, fun v => mem_objectsOf g hkeys hn⟩
  | .inverse sub, n, hn => by
    by_cases hsub : ∃ p, sub = .predicate p
    · rcases hsub with ⟨p, rfl⟩
      exact ⟨Bool.noConfusion, fun v => mem_subjectsOf g hkeys hn⟩
    · rw [not_exists] at hsub
      rcases candidates_spec o g hkeys with ⟨hnodup, hmem⟩
      rw [evalPath_inverse hsub]
      refine ⟨fun _ => hnodup.filter _, fun v => ?_⟩
      rw [mem_filter, hmem, foundRel_inverse hsub]
      refine and_congr_right ?_
      intro hv
      rcases evalPath_spec o g hkeys sub (mem_cons_of_mem f hv) with ⟨-, hsubmem⟩
      simp only [any_eq_true, equal_iff_of_ne, hsubmem]
      exact ⟨fun ⟨w, hw, heq, hne⟩ => ⟨heq ▸ hw, hne⟩, fun ⟨hw, hne⟩ => ⟨n, hw, rfl, hne⟩⟩
  | .sequence es, n, hn => by
    rcases evalSequencePath_spec o g hkeys es (nodup_singleton n)
      (by simpa using hn) with ⟨hnodup, hmem⟩
    simp only [evalPath, FoundRel]
    exact ⟨fun _ => hnodup, fun v => by rw [hmem]; simp⟩
  | .alternative es, n, hn => by
    have hmem := alternatives_spec o g hkeys es hn
    have hknown : ∀ v ∈ alternatives o g.triples es n, v ∈ f :: nodesOf g.triples := fun v hv =>
      mem_known hn (mem_of_mem_alternatives o es n v hv)
    rcases fresh_spec g hkeys [] hknown with ⟨hnodup, hfresh⟩
    simp only [evalPath, FoundRel]
    exact ⟨fun _ => hnodup, fun v => by rw [hfresh, hmem]; simp⟩
  | .zeroOrMore sub, n, hn => by
    exact (transitiveClose_spec g hkeys (mem_of_mem_evalPath o sub)
      (fun a ha => (evalPath_spec o g hkeys sub ha).2) hn).1.imp_left fun h _ => h
  | .oneOrMore sub, n, hn => by
    simp only [evalPath, FoundRel]
    exact (transitiveClose_spec g hkeys (mem_of_mem_evalPath o sub)
      (fun a ha => (evalPath_spec o g hkeys sub ha).2) hn).2.imp_left fun h _ => h
  | .zeroOrOne sub, n, hn => by
    rcases evalPath_spec o g hkeys sub hn with ⟨-, hmem⟩
    have hknown : ∀ v ∈ evalPath o g.triples sub n, v ∈ f :: nodesOf g.triples := fun v hv =>
      mem_known hn (mem_of_mem_evalPath o sub n v hv)
    rcases fresh_spec g hkeys [n.termKey] hknown with ⟨hnodup, hfresh⟩
    simp only [evalPath, FoundRel]
    refine ⟨fun _ => nodup_cons.mpr ⟨?_, hnodup⟩, fun v => ?_⟩
    · intro h
      exact ((hfresh n).mp h).2 (mem_singleton_self _)
    · rw [mem_cons, hfresh, hmem]
      constructor
      · exact Or.imp id And.left
      · rintro (rfl | hv)
        · exact .inl rfl
        · by_cases hvn : v = n
          · exact .inl hvn
          · refine .inr ⟨hv, ?_⟩
            rw [mem_singleton]
            exact fun hk => hvn (hkeys v (hknown v ((hmem v).mpr hv)) n hn hk)

/-- Induction on the elements; what holds of a list of nodes is passed on from one to the next. -/
theorem evalSequencePath_spec (o : MapOrder) (g : DataGraph) (hkeys : KeysApart g.triples f) :
    ∀ (es : List PropertyPath) {current : List ShaclTerm},
      current.Nodup → (∀ c ∈ current, c ∈ f :: nodesOf g.triples) →
      (evalSequencePath o g.triples es current).Nodup ∧
        ∀ v, v ∈ evalSequencePath o g.triples es current ↔
          ∃ c ∈ current, FoundSequence g.triples es c v
  | [], current, hnodup, _ => by
    simp only [evalSequencePath, FoundSequence]
    exact ⟨hnodup, fun v => by simp⟩
  | elem :: es, current, hnodup, hknown => by
    have hmem : ∀ v, v ∈ current.flatMap (evalPath o g.triples elem) ↔
        ∃ c ∈ current, FoundRel g.triples elem c v := by
      intro v
      rw [mem_flatMap]
      exact exists_congr fun c => and_congr_right fun hc =>
        (evalPath_spec o g hkeys elem (hknown c hc)).2 v
    have hnext : ∀ v ∈ current.flatMap (evalPath o g.triples elem), v ∈ f :: nodesOf g.triples := by
      intro v hv
      rcases mem_flatMap.mp hv with ⟨c, hc, hcv⟩
      exact mem_known (hknown c hc) (mem_of_mem_evalPath o elem c v hcv)
    rcases fresh_spec g hkeys [] hnext with ⟨hfnodup, hfmem⟩
    rcases evalSequencePath_spec o g hkeys es hfnodup
      (fun c hc => hnext c ((hfmem c).mp hc).1) with ⟨hsnodup, hsmem⟩
    simp only [evalSequencePath, FoundSequence]
    refine ⟨hsnodup, fun v => ?_⟩
    rw [hsmem]
    constructor
    · rintro ⟨m, hm, hmv⟩
      rcases (hmem m).mp ((hfmem m).mp hm).1 with ⟨c, hc, hcm⟩
      exact ⟨c, hc, m, hcm, hmv⟩
    · rintro ⟨c, hc, m, hcm, hmv⟩
      exact ⟨m, (hfmem m).mpr ⟨(hmem m).mpr ⟨c, hc, hcm⟩, by simp⟩, hmv⟩

theorem alternatives_spec (o : MapOrder) (g : DataGraph) (hkeys : KeysApart g.triples f) :
    ∀ (es : List PropertyPath) {n : ShaclTerm},
      n ∈ f :: nodesOf g.triples →
      ∀ v, v ∈ alternatives o g.triples es n ↔ FoundAlternative g.triples es n v
  | [], _, _, v => by simp [alternatives, FoundAlternative]
  | elem :: es, n, hn, v => by
    simp only [alternatives, FoundAlternative, mem_append]
    rw [(evalPath_spec o g hkeys elem hn).2, alternatives_spec o g hkeys es hn]

end

/-- From a known term, each value is listed once if the term of no kind is not one. -/
theorem nodup_evalPath (o : MapOrder) (g : DataGraph) (hkeys : KeysApart g.triples f)
    (path : PropertyPath) {n : ShaclTerm} (hn : n ∈ f :: nodesOf g.triples) (hnone : n ≠ .none)
    (hvalues : .none ∉ evalPath o g.triples path n) : (evalPath o g.triples path n).Nodup := by
  cases hlookup : path.isLookup with
  | false => exact (evalPath_spec o g hkeys path hn).1 hlookup
  | true =>
    match path, hlookup with
    | .predicate p, _ => exact nodup_objectsOf g hkeys hn hnone p hvalues
    | .inverse (.predicate p), _ => exact nodup_subjectsOf g hkeys hn hnone p hvalues

/-! ## Where nothing is lost -/

theorem lossless_inverse {sub : PropertyPath} (h : ∀ p, sub ≠ .predicate p) {n : ShaclTerm}
    {T : ShaclTerm → Prop} :
    Lossless g (.inverse sub) n T ↔ n ≠ .none ∧ (T n → PathRel g sub n n → n ∈ nodesOf g) ∧
      ∀ v ∈ nodesOf g, T v → Lossless g sub v (· = n) := by
  cases sub with
  | predicate p => exact absurd rfl (h p)
  | _ => rw [Lossless]; simp

/-- Steps that stand still are not needed to get from one place to another. -/
theorem reflTransGen_of_moves {α : Type} {r r' : α → α → Prop} {a b : α}
    (hr : ∀ m c, ReflTransGen r a m → ReflTransGen r c b → c ≠ m → r m c → r' m c)
    (h : ReflTransGen r a b) : ReflTransGen r' a b := by
  suffices ∀ m, ReflTransGen r a m → ReflTransGen r m b → ReflTransGen r' m b from this a .refl h
  intro m ham hmb
  induction hmb using ReflTransGen.head_induction_on with
  | refl => exact .refl
  | @head m c hstep hcb ih =>
    have hc := ih (ham.tail hstep)
    by_cases hcm : c = m
    · rwa [← hcm]
    · exact hc.head (hr m c ham hcb hcm hstep)

/-- A term that no triple mentions leads nowhere but to itself. -/
theorem known_of_steps {r : ShaclTerm → ShaclTerm → Prop} {s v : ShaclTerm}
    (hr : ∀ a b, r a b → b ≠ a → a ∈ nodesOf g ∧ b ∈ nodesOf g) (h : ReflTransGen r s v)
    (hne : v ≠ s) : s ∈ nodesOf g ∧ v ∈ nodesOf g := by
  induction h with
  | refl => exact absurd rfl hne
  | @tail m c _ hstep ih =>
    by_cases hc : c = m
    · subst hc
      exact ih hne
    · rcases hr m c hstep hc with ⟨hm, hcn⟩
      by_cases hms : m = s
      · exact ⟨hms ▸ hm, hcn⟩
      · exact ⟨(ih hms).1, hcn⟩

mutual

/-- Two different terms that a path relates are both in the graph. -/
theorem PathRel.known : ∀ {path : PropertyPath} {s v : ShaclTerm},
    PathRel g path s v → v ≠ s → s ∈ nodesOf g ∧ v ∈ nodesOf g
  | .predicate _, _, _, h, _ => ⟨subject_mem_nodesOf h, object_mem_nodesOf h⟩
  | .inverse sub, s, v, h, hne => (PathRel.known (show PathRel g sub v s from h) hne.symm).symm
  | .sequence _, _, _, h, hne => SequenceRel.known h hne
  | .alternative _, _, _, h, hne => AlternativeRel.known h hne
  | .zeroOrMore _, _, _, h, hne =>
    known_of_steps (fun _ _ => PathRel.known) h hne
  | .oneOrMore _, _, _, h, hne =>
    known_of_steps (fun _ _ => PathRel.known) (TransGen.to_reflTransGen h) hne
  | .zeroOrOne _, _, _, h, hne => PathRel.known (h.resolve_left hne) hne

theorem SequenceRel.known : ∀ {es : List PropertyPath} {s v : ShaclTerm},
    SequenceRel g es s v → v ≠ s → s ∈ nodesOf g ∧ v ∈ nodesOf g
  | [], _, _, h, hne => absurd h hne
  | _ :: _, s, v, ⟨m, hm, hv⟩, hne => by
    by_cases hms : m = s
    · subst hms
      exact hv.known hne
    · by_cases hvm : v = m
      · subst hvm
        exact hm.known hne
      · exact ⟨(hm.known hms).1, (hv.known hvm).2⟩

theorem AlternativeRel.known : ∀ {es : List PropertyPath} {s v : ShaclTerm},
    AlternativeRel g es s v → v ≠ s → s ∈ nodesOf g ∧ v ∈ nodesOf g
  | _ :: _, _, _, .inl h, hne => PathRel.known h hne
  | _ :: _, _, _, .inr h, hne => AlternativeRel.known h hne

end

mutual

/-- Induction on the path. `T` says which values are asked for, so that an inverse has to find
    only its focus. -/
theorem Lossless.foundRel : ∀ {path : PropertyPath} {n : ShaclTerm} {T : ShaclTerm → Prop},
    Lossless g path n T → ∀ {v}, T v → PathRel g path n v → FoundRel g path n v
  | .predicate _, _, _, _, _, _, hv => hv
  | .inverse sub, n, T, h, v, hT, hv => by
    by_cases hsub : ∃ p, sub = .predicate p
    · rcases hsub with ⟨p, rfl⟩
      exact hv
    · rw [not_exists] at hsub
      rcases (lossless_inverse hsub).mp h with ⟨hne, hself, hall⟩
      rw [foundRel_inverse hsub]
      have hnode : v ∈ nodesOf g := by
        by_cases hvn : v = n
        · subst hvn
          exact hself hT hv
        · exact (PathRel.known hv hvn).2
      exact ⟨hnode, (hall v hnode hT).foundRel rfl hv, hne⟩
  | .sequence _, _, _, h, _, hT, hv => LosslessSequence.foundSequence h hT hv
  | .alternative _, _, _, h, _, hT, hv => LosslessAlternative.foundAlternative h hT hv
  | .zeroOrMore _, _, _, h, v, hT, hv =>
    reflTransGen_of_moves (fun m _ hm hc hne hstep =>
      (h m hm ⟨v, hT, hc.head hstep⟩).2.foundRel ⟨hne, v, hT, hc⟩ hstep) hv
  | .oneOrMore _, n, T, hclear, v, hT, hv => by
    rw [Lossless] at hclear
    rcases hclear with ⟨hback, h⟩
    have hne : v ≠ n := by
      rintro rfl
      exact hback hT hv
    have hfound := reflTransGen_of_moves (fun m _ hm hc hne hstep =>
      (h m hm ⟨v, hT, hc.head hstep⟩).2.foundRel ⟨hne, v, hT, hc⟩ hstep)
      (TransGen.to_reflTransGen hv)
    exact ⟨(reflTransGen_iff_eq_or_transGen.mp hfound).resolve_left hne, hne⟩
  | .zeroOrOne _, n, T, h, v, hT, hv => by
    rw [Lossless] at h
    by_cases hne : v = n
    · exact .inl hne
    · exact .inr (h.foundRel ⟨hT, hne⟩ (hv.resolve_left hne))

theorem LosslessSequence.foundSequence :
    ∀ {es : List PropertyPath} {n : ShaclTerm} {T : ShaclTerm → Prop},
      LosslessSequence g es n T → ∀ {v}, T v → SequenceRel g es n v → FoundSequence g es n v
  | [], _, _, _, _, _, hv => hv
  | _ :: _, _, _, ⟨helem, hrest⟩, v, hT, ⟨m, hm, hv⟩ =>
    ⟨m, helem.foundRel ⟨v, hT, hv⟩ hm, (hrest m v hm hT hv).2.foundSequence hT hv⟩

theorem LosslessAlternative.foundAlternative :
    ∀ {es : List PropertyPath} {n : ShaclTerm} {T : ShaclTerm → Prop},
      LosslessAlternative g es n T → ∀ {v}, T v → AlternativeRel g es n v →
        FoundAlternative g es n v
  | _ :: _, _, _, ⟨helem, hrest⟩, _, hT, hv =>
    hv.imp (helem.foundRel hT) (hrest.foundAlternative hT)

end

/-- A cycle of two triples. -/
def roundTrip : DataGraph where
  triples := [⟨.iri "a", .iri "p", .iri "b"⟩, ⟨.iri "b", .iri "p", .iri "a"⟩]
  once := by simp
  predicates := by simp

/-- The orders of the maps are seen only in the order of the values. -/
theorem evalPath_perm (o o' : MapOrder) (g : DataGraph) (path : PropertyPath) (focus : ShaclTerm)
    (hkeys : KeysApart g.triples focus) :
    (evalPath o g.triples path focus).Perm (evalPath o' g.triples path focus) := by
  rcases evalPath_spec o g hkeys path mem_cons_self with ⟨hnodup, hmem⟩
  rcases evalPath_spec o' g hkeys path mem_cons_self with ⟨hnodup', hmem'⟩
  cases hlookup : path.isLookup with
  | false =>
    exact (perm_ext_iff_of_nodup (hnodup hlookup) (hnodup' hlookup)).mpr
      fun v => (hmem v).trans (hmem' v).symm
  | true =>
    -- A lookup goes by the triples of one index entry, which no order touches.
    match path, hlookup with
    | .predicate _, _ => exact .refl _
    | .inverse (.predicate _), _ => exact .refl _

theorem evalPath_perm_reverse :
    let path := (PropertyPath.predicate (.iri "p")).zeroOrOne.inverse
    (evalPath asFilled roundTrip.triples path (.iri "a")).Perm
      (evalPath ⟨reverse, reverse, reverse_perm, reverse_perm⟩ roundTrip.triples path (.iri "a")) :=
  evalPath_perm _ _ _ _ _ (by decide)

end Shacl

end GoRdf
