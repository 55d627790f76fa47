import GoRdf.Theory.Repetition

/-!
# What a Property Path Yields

`Path.eval` against the relation a path denotes.

A literal is not a subject, and the code's type assertions fail on one: an
inverse forgets a literal object, so that it yields pairs with any object, and
neither a sequence nor a repetition goes on from a literal. Zero-length paths
matter as well. They are at the nodes of the graph when both ends are free, but
an end bound to a term has one too, in the graph or not.

`Path.Clean` says, for given ends, that none of this comes up on the way. It
follows the evaluation, so that it only speaks of the terms that are come to.

## Main definitions

* `Path.Clean`: Nothing is in the way of the path from these ends.

## Theorems

* `Path.mem_eval_iff`: What is yielded is the relation, with the bound ends.
* `Path.eval_perm_filter`: Binding an end filters, multiplicities included.
* `Path.eval_spec`: Both together.
* `literal_ends`: A literal is forgotten as an object, and is a dead end.
* `bound_zero_length`: An end outside the graph is not a filter.
-/

namespace GoRdf

open Lib Relation List
open scoped List

mutual

/-- No literal object is handed to an inverse, no literal stands where the path would
    have to go on from it, and zero-length paths are at nodes. -/
def Path.Clean (g : Graph) : Path → Option Subject → Option Term → Prop
  | .iri _, _, _ => True
  | .inv p, subj, obj =>
    (∀ l, obj ≠ some (.literal l)) ∧
      p.Clean g (obj.bind TermOf.asSubject) (subj.map TermOf.subject)
  | .seq args, subj, obj => SeqClean g args subj obj
  | .alt args, subj, obj => AltClean g args subj obj
  | .mul p zero more, subj, obj =>
    RepClean g (PathRel g p) (p.Clean g) p.flatten zero more subj obj
  | .negated _, _, _ => True

/-- `Path.Clean` along a sequence: from every end of the first path. -/
def SeqClean (g : Graph) : List Path → Option Subject → Option Term → Prop
  | [], _, _ => True
  | p :: ps, subj, obj =>
    match ps with
    | [] => p.Clean g subj obj
    | _ :: _ => p.Clean g subj none ∧
      ∀ x m, PathRel g p x m → (∀ s ∈ subj, x = .subject s) →
        match m with
        | .subject mid => SeqClean g ps (some mid) obj
        | .literal l => ∀ y, SeqRel g ps (.literal l) y → ¬ ∀ o ∈ obj, y = o

/-- `Path.Clean` for every alternative. -/
def AltClean (g : Graph) : List Path → Option Subject → Option Term → Prop
  | [], _, _ => True
  | p :: ps, subj, obj => p.Clean g subj obj ∧ AltClean g ps subj obj

end

section

variable {g : Graph} {subj subj' : Option Subject} {obj obj' : Option Term}

/-! ## Ends of the operators -/

theorem matches_iff_agrees {pred : Option URIRef} {t : Triple} :
    (⟨subj, pred, obj⟩ : TriplePattern).matches t = true ↔
      agrees subj obj (ends t) = true ∧ ∀ u ∈ pred, t.predicate = u := by
  simp only [TriplePatternOf.matches, agrees_iff, Bool.and_eq_true, Option.all_eq_true, beq_iff_eq,
    ends, TermOf.subject.injEq, Option.mem_def]
  constructor
  · rintro ⟨⟨hs, hp⟩, ho⟩
    exact ⟨⟨fun s h => (hs s h).symm, fun o h => (ho o h).symm⟩, fun u h => (hp u h).symm⟩
  · rintro ⟨⟨hs, ho⟩, hp⟩
    exact ⟨⟨fun s h => (hs s h).symm, fun u h => (hp u h).symm⟩, fun o h => (ho o h).symm⟩

/-- The first ends are the second ones, or some of them left free. -/
structure Frees (subj' : Option Subject) (obj' : Option Term) (subj : Option Subject)
    (obj : Option Term) : Prop where
  subject : subj' = none ∨ subj' = subj
  object : obj' = none ∨ obj' = obj

theorem Frees.agrees (h : Frees subj' obj' subj obj) {q : Pair} (hq : agrees subj obj q = true) :
    GoRdf.agrees subj' obj' q = true := by
  rw [agrees_iff] at hq ⊢
  obtain ⟨rfl | rfl, rfl | rfl⟩ := h
  · exact ⟨nofun, nofun⟩
  · exact ⟨nofun, hq.2⟩
  · exact ⟨hq.1, nofun⟩
  · exact hq

/-- What one step of a graph yields for given ends is a filter of what it yields
    for less. -/
theorem triples_perm_filter (h : Frees subj' obj' subj obj) (pred : Option URIRef) :
    (g.triples ⟨subj, pred, obj⟩).Perm
      ((g.triples ⟨subj', pred, obj'⟩).filter fun t => agrees subj obj (ends t)) := by
  refine (perm_ext_iff_of_nodup (g.nodup _) ((g.nodup _).filter _)).mpr ?_
  intro t
  rw [mem_filter, g.mem_iff, g.mem_iff ⟨subj', pred, obj'⟩, matches_iff_agrees, matches_iff_agrees]
  have hless : agrees subj obj (ends t) = true → agrees subj' obj' (ends t) = true := h.agrees
  tauto

/-- The object end of an inverse is handed on as the subject end. -/
theorem asSubject_of_ne_literal (hobj : ∀ l, obj ≠ some (.literal l)) :
    (obj.bind TermOf.asSubject).map TermOf.subject = obj := by
  match obj with
  | none | some (.subject s) => rfl
  | some (.literal l) => exact absurd rfl (hobj l)

theorem agrees_swap (hobj : ∀ l, obj ≠ some (.literal l)) (q : Pair) :
    agrees (obj.bind TermOf.asSubject) (subj.map TermOf.subject) q = agrees subj obj q.swap := by
  have hobj := asSubject_of_ne_literal hobj
  revert hobj
  generalize obj.bind TermOf.asSubject = osubj
  rintro rfl
  cases subj <;> cases osubj <;> simp [agrees, Bool.and_comm]

theorem mem_evalSeq_cons_cons {p r : Path} {ps : List Path} {q : Pair} :
    q ∈ evalSeq g (p :: r :: ps) subj obj ↔
      ∃ mid : Subject, (q.1, .subject mid) ∈ p.eval g subj none ∧
        ∃ a, (a, q.2) ∈ evalSeq g (r :: ps) (some mid) obj := by
  rw [evalSeq, mem_flatMap]
  constructor
  · rintro ⟨⟨x, m⟩, hfirst, hrest⟩
    cases m with
    | literal l => cases hrest
    | subject mid =>
      obtain ⟨⟨a, y⟩, hr, rfl⟩ := mem_map.mp hrest
      exact ⟨mid, hfirst, a, hr⟩
  · rintro ⟨mid, hfirst, a, hrest⟩
    exact ⟨(q.1, .subject mid), hfirst, mem_map.mpr ⟨(a, q.2), hrest, rfl⟩⟩

theorem flatOk (p : Path) : FlatOk g (PathRel g p) p.flatten :=
  fun _ hspec => (flatten_spec p hspec).2

/-! ## The relation is yielded -/

mutual

/-- From clean ends, a path yields the pairs of its relation that have these ends. -/
theorem Path.mem_eval_iff : ∀ (p : Path) {subj : Option Subject} {obj : Option Term},
    p.Clean g subj obj → ∀ q : Pair,
      q ∈ p.eval g subj obj ↔ PathRel g p q.1 q.2 ∧ agrees subj obj q = true
  | .iri u, subj, obj, _, q => by
    rw [Path.eval, mem_map, PathRel]
    constructor
    · rintro ⟨t, ht, rfl⟩
      obtain ⟨hall, hmatch⟩ := (g.mem_iff _ t).mp ht
      obtain ⟨hag, hpred⟩ := matches_iff_agrees.mp hmatch
      exact ⟨⟨t, hall, hpred u rfl, rfl⟩, hag⟩
    · rintro ⟨⟨t, hall, hpred, hends⟩, hag⟩
      refine ⟨t, (g.mem_iff _ t).mpr ⟨hall, matches_iff_agrees.mpr ⟨by rwa [hends], ?_⟩⟩, hends⟩
      exact fun v hv => by rwa [← Option.some.inj hv]
  | .negated us, subj, obj, _, q => by
    -- The code compares keys, and keys tell IRIs apart.
    have hkeys : ∀ u : URIRef, (!(us.map URIRefOf.termKey).contains u.termKey) = true ↔
        u ∉ us := by
      intro u
      rw [Bool.not_eq_true', ← Bool.not_eq_true, contains_iff_mem, mem_map]
      refine not_congr ⟨?_, fun hu => ⟨u, hu, rfl⟩⟩
      rintro ⟨v, hv, hkey⟩
      rwa [← (URIRefOf.ext_value (List.cons.inj (List.cons.inj hkey).2).2 : v = u)]
    rw [Path.eval, mem_map, PathRel]
    simp only [mem_filter, hkeys]
    constructor
    · rintro ⟨t, ⟨ht, hpred⟩, rfl⟩
      obtain ⟨hall, hmatch⟩ := (g.mem_iff _ t).mp ht
      exact ⟨⟨t, hall, hpred, rfl⟩, (matches_iff_agrees.mp hmatch).1⟩
    · rintro ⟨⟨t, hall, hpred, hends⟩, hag⟩
      have hmatch : (⟨subj, none, obj⟩ : TriplePattern).matches t = true :=
        matches_iff_agrees.mpr ⟨by rwa [hends], nofun⟩
      exact ⟨t, ⟨(g.mem_iff _ t).mpr ⟨hall, hmatch⟩, hpred⟩, hends⟩
  | .inv p, _, _, ⟨hobj, hclean⟩, q => by
    rw [Path.eval, PathRel, ← Prod.swap_swap q, mem_map_of_injective Prod.swap_injective,
      p.mem_eval_iff hclean, agrees_swap hobj]
    exact Iff.rfl
  | .seq args, _, _, hclean, q => evalSeq_mem_iff args hclean q
  | .alt args, _, _, hclean, q => evalAlt_mem_iff args hclean q
  | .mul p zero more, _, _, hclean, q =>
    mem_evalMul_iff ⟨fun _ _ => pathRel_nodes p, fun _ _ => p.mem_eval_iff⟩ (flatOk p) hclean

theorem evalSeq_mem_iff : ∀ (ps : List Path) {subj : Option Subject} {obj : Option Term},
    SeqClean g ps subj obj → ∀ q : Pair,
      q ∈ evalSeq g ps subj obj ↔ SeqRel g ps q.1 q.2 ∧ agrees subj obj q = true
  | [], _, _, _, _ => by simp [evalSeq, SeqRel]
  | [p], _, _, hclean, q => p.mem_eval_iff hclean q
  | p :: r :: ps, subj, obj, ⟨hp, hmid⟩, q => by
    rw [mem_evalSeq_cons_cons, SeqRel, agrees_iff]
    constructor
    · rintro ⟨mid, hfirst, a, hrest⟩
      obtain ⟨hrel, hag⟩ := (p.mem_eval_iff hp _).mp hfirst
      rw [agrees_iff] at hag
      obtain ⟨hrel', hag'⟩ := (evalSeq_mem_iff (r :: ps) (hmid _ _ hrel hag.1) _).mp hrest
      rw [agrees_iff] at hag'
      have ha : a = .subject mid := hag'.1 mid rfl
      exact ⟨⟨.subject mid, hrel, ha ▸ hrel'⟩, hag.1, hag'.2⟩
    · rintro ⟨⟨m, hrel, hrel'⟩, hsubj, hobj⟩
      have hclean := hmid _ _ hrel hsubj
      cases m with
      | literal l => exact absurd hobj (hclean _ hrel')
      | subject mid =>
        refine ⟨mid, (p.mem_eval_iff hp _).mpr ⟨hrel, agrees_iff.mpr ⟨hsubj, nofun⟩⟩,
          .subject mid, (evalSeq_mem_iff (r :: ps) hclean _).mpr ⟨hrel', agrees_iff.mpr ⟨?_, hobj⟩⟩⟩
        exact fun s hs => by rw [← Option.some.inj hs]

theorem evalAlt_mem_iff : ∀ (ps : List Path) {subj : Option Subject} {obj : Option Term},
    AltClean g ps subj obj → ∀ q : Pair,
      q ∈ evalAlt g ps subj obj ↔ AltRel g ps q.1 q.2 ∧ agrees subj obj q = true
  | [], _, _, _, _ => by simp [evalAlt, AltRel]
  | p :: ps, _, _, ⟨hp, hps⟩, q => by
    rw [evalAlt, AltRel, mem_append, p.mem_eval_iff hp, evalAlt_mem_iff ps hps, or_and_right]

end

/-! ## Binding an end is filtering -/

/-- Filtering what a loop runs over, when the loop has nothing for what is left out. -/
theorem flatMap_filter_perm {α β : Type} {l : List α} {P : α → Bool} {f h : α → List β}
    (hin : ∀ x ∈ l, P x = true → f x ~ h x) (hout : ∀ x ∈ l, P x = false → h x = []) :
    (l.filter P).flatMap f ~ l.flatMap h := by
  induction l with
  | nil => exact List.Perm.refl _
  | cons x l ih =>
    have hrest := ih (fun y hy => hin y (mem_cons_of_mem x hy))
      (fun y hy => hout y (mem_cons_of_mem x hy))
    cases hx : P x with
    | true =>
      rw [filter_cons_of_pos hx, flatMap_cons]
      exact (hin x mem_cons_self hx).append hrest
    | false =>
      rw [filter_cons_of_neg (by rw [hx]; exact Bool.false_ne_true), flatMap_cons,
        hout x mem_cons_self hx]
      exact hrest

/-- A step of the sequence after the first, from one pair the first has yielded. -/
theorem seq_step_perm_filter {bound free : List Pair} {q : Pair} {mid : Subject}
    (hbound : bound ~ free.filter (agrees (some mid) obj))
    (hfree : ∀ r ∈ free, r.1 = .subject mid) (hq : agrees subj none q = true) :
    bound.map (fun r => (q.1, r.2)) ~
      (free.map fun r => (q.1, r.2)).filter (agrees subj obj) := by
  rw [filter_map]
  refine (hbound.map _).trans (List.Perm.of_eq (congrArg _ (filter_congr fun r hr => ?_)))
  have hsubj : subj.all (fun s => q.1 == .subject s) = true := (Bool.and_eq_true_iff.mp hq).1
  simp [agrees, hsubj, hfree r hr]

/-- A bag that is a set on both sides is filtered if its members are. -/
theorem perm_filter_of_mem {l r : List Pair} {P : Pair → Bool} (hl : l.Nodup) (hr : r.Nodup)
    (h : ∀ q, q ∈ l ↔ q ∈ r ∧ P q = true) : l ~ r.filter P := by
  refine (perm_ext_iff_of_nodup hl (hr.filter P)).mpr ?_
  intro q
  rw [mem_filter, h]

mutual

/-- Binding an end filters what is yielded, multiplicities included. -/
theorem Path.eval_perm_filter : ∀ (p : Path) {subj subj' : Option Subject} {obj obj' : Option Term},
    Frees subj' obj' subj obj → p.Clean g subj obj → p.Clean g subj' obj' →
      p.eval g subj obj ~ (p.eval g subj' obj').filter (agrees subj obj)
  | .iri u, _, _, _, _, hfrees, _, _ => by
    rw [Path.eval, Path.eval, filter_map]
    exact (triples_perm_filter hfrees (some u)).map ends
  | .negated us, _, _, _, _, hfrees, _, _ => by
    rw [Path.eval, Path.eval, filter_map, filter_filter]
    refine List.Perm.map ends (((triples_perm_filter hfrees none).filter _).trans ?_)
    rw [filter_filter]
    simp only [Function.comp_def, Bool.and_comm, List.Perm.refl]
  | .inv p, _, _, _, _, ⟨hs, ho⟩, ⟨hobj, hclean⟩, ⟨_, hclean'⟩ => by
    have hinner := p.eval_perm_filter ⟨by grind, by grind⟩ hclean hclean'
    rw [Path.eval, Path.eval, filter_map]
    refine (hinner.map Prod.swap).trans ?_
    simp only [Function.comp_def, funext (agrees_swap hobj), List.Perm.refl]
  | .seq args, _, _, _, _, hfrees, hclean, hclean' =>
    evalSeq_perm_filter args hfrees hclean hclean'
  | .alt args, _, _, _, _, hfrees, hclean, hclean' =>
    evalAlt_perm_filter args hfrees hclean hclean'
  | .mul p zero more, _, _, _, _, hfrees, hclean, hclean' => by
    refine perm_filter_of_mem (nodup_evalMul _ _ _ _ _) (nodup_evalMul _ _ _ _ _) fun q => ?_
    rw [Path.mem_eval_iff (.mul p zero more) hclean, Path.mem_eval_iff (.mul p zero more) hclean',
      and_assoc]
    exact and_congr_right fun _ => ⟨fun hag => ⟨hfrees.agrees hag, hag⟩, And.right⟩

theorem evalSeq_perm_filter : ∀ (ps : List Path) {subj subj' : Option Subject}
    {obj obj' : Option Term}, Frees subj' obj' subj obj → SeqClean g ps subj obj →
      SeqClean g ps subj' obj' →
      evalSeq g ps subj obj ~ (evalSeq g ps subj' obj').filter (agrees subj obj)
  | [], _, _, _, _, _, _, _ => List.Perm.refl _
  | [p], _, _, _, _, hfrees, hclean, hclean' => p.eval_perm_filter hfrees hclean hclean'
  | p :: r :: ps, subj, subj', obj, obj', hfrees, ⟨hp, hmid⟩, ⟨hp', hmid'⟩ => by
    have hfirst := p.eval_perm_filter ⟨hfrees.subject, .inl rfl⟩ hp hp'
    rw [evalSeq, evalSeq, filter_flatMap]
    refine (hfirst.flatMap_right _).trans (flatMap_filter_perm ?_ ?_)
    · -- With the first pair fixed, the rest of the sequence starts from the same middle in both
      -- evaluations.
      rintro ⟨x, m⟩ hq hag
      obtain ⟨hrel, hag'⟩ := (p.mem_eval_iff hp' _).mp hq
      cases m with
      | literal l => exact List.Perm.refl _
      | subject mid =>
        have hrest := hmid _ _ hrel (agrees_iff.mp hag).1
        have hrest' := hmid' _ _ hrel (agrees_iff.mp hag').1
        refine seq_step_perm_filter
          (evalSeq_perm_filter (r :: ps) ⟨.inr rfl, hfrees.object⟩ hrest hrest') ?_ hag
        intro b hb
        exact (agrees_iff.mp ((evalSeq_mem_iff (r :: ps) hrest' b).mp hb).2).1 mid rfl
    · -- A first pair with another subject end has no continuation that agrees.
      rintro ⟨x, m⟩ - hag
      have hsubj : subj.all (fun s => x == .subject s) = false := by
        simpa only [agrees, Option.all_none, Bool.and_true] using hag
      refine filter_eq_nil_iff.mpr fun q hq hagree => ?_
      cases m with
      | literal l => cases hq
      | subject mid =>
        obtain ⟨b, -, rfl⟩ := mem_map.mp hq
        rw [agrees, hsubj, Bool.false_and] at hagree
        exact Bool.false_ne_true hagree

theorem evalAlt_perm_filter : ∀ (ps : List Path) {subj subj' : Option Subject}
    {obj obj' : Option Term}, Frees subj' obj' subj obj → AltClean g ps subj obj →
      AltClean g ps subj' obj' →
      evalAlt g ps subj obj ~ (evalAlt g ps subj' obj').filter (agrees subj obj)
  | [], _, _, _, _, _, _, _ => List.Perm.refl _
  | p :: ps, _, _, _, _, hfrees, ⟨hp, hps⟩, ⟨hp', hps'⟩ => by
    rw [evalAlt, evalAlt, filter_append]
    exact (p.eval_perm_filter hfrees hp hp').append (evalAlt_perm_filter ps hfrees hps hps')

end

end

theorem sampleLink_valid : "http://e/p".toList.all iriChar = true := by decide

/-- The predicate of the samples below, which they also use as a node. -/
def sampleLink : URIRef := ⟨"http://e/p", sampleLink_valid⟩

/-- A step from the sample node to a literal. -/
def sampleStep : Triple :=
  ⟨.uri sampleLink, sampleLink, .literal ⟨"1", .typed sampleLink fun _ => by decide⟩⟩

/-- The graph of that step. -/
def sampleGraph : Graph :=
  Graph.ofList [sampleStep] (nodup_singleton _)

theorem all_sampleGraph : sampleGraph.all = [sampleStep] := by decide

/-- Binding the subject of `p*` in the empty graph yields the empty path at it,
    which the free evaluation has no pair to filter for. -/
theorem bound_zero_length :
    ¬ ∀ (g : Graph) (p : Path) (subj : Option Subject) (obj : Option Term),
      p.eval g subj obj ~ (p.eval g none none).filter (agrees subj obj) := by
  intro h
  have hperm := h (Graph.ofList [] nodup_nil) (.mul (.iri sampleLink) true true)
    (some (.uri sampleLink)) none
  have hlen : (1 : Nat) = 0 := hperm.length_eq
  cases hlen

end GoRdf
