import GoRdf.Lib.Iterate
import GoRdf.Core.Path
import GoRdf.Theory.TermKey

/-!
# The Relation a Path Denotes

The pairs of ends a property path relates in a graph, as SPARQL 1.1 defines
them operator by operator, independently of how they are found. Zero-length
paths relate the nodes of the graph to themselves.

## Main definitions

* `Graph.IsNode`: A subject or object of the graph.
* `PathRel`: The relation of a path.

## Theorems

* `mem_allNodes`: `AllNodes` is the set of nodes.
* `pathRel_nodes`: A path leads from nodes to nodes.
* `flatten_spec`: What a backend is asked for is the path's relation.
-/

namespace GoRdf

open Relation List

/-! ## Nodes -/

/-- The term is a subject or an object of the graph. -/
def Graph.IsNode (g : Graph) (x : Term) : Prop :=
  ∃ t ∈ g.all, x = .subject t.subject ∨ x = t.object

theorem isNode_of_ends {g : Graph} {t : Triple} (ht : t ∈ g.all) {x y : Term}
    (h : ends t = (x, y)) : g.IsNode x ∧ g.IsNode y := by
  rw [Prod.mk.injEq] at h
  exact ⟨⟨t, ht, .inl h.1.symm⟩, ⟨t, ht, .inr h.2.symm⟩⟩

/-- A term joins the map under its key. -/
theorem lookup_insert_termKey (m : AList fun _ : List Char => Term) (x y : Term) :
    (m.insert y.termKey y).lookup x.termKey = some x ↔ m.lookup x.termKey = some x ∨ x = y := by
  by_cases hk : x.termKey = y.termKey
  · rw [Term.termKey_inj.mp hk, AList.lookup_insert]
    exact iff_of_true rfl (.inr rfl)
  · rw [AList.lookup_insert_ne hk]
    exact (or_iff_left fun h => hk (congrArg _ h)).symm

/-- The map `AllNodes` builds holds every node, and holds terms under their keys. -/
theorem mem_allNodes (g : Graph) (x : Term) : x ∈ g.allNodes ↔ g.IsNode x := by
  have hmem : g.nodeMap.lookup x.termKey = some x ↔ g.IsNode x := by
    have hstep : ∀ (m : AList fun _ : List Char => Term) (t : Triple),
        ((m.insert t.subject.termKey (.subject t.subject)).insert t.object.termKey
          t.object).lookup x.termKey = some x ↔
        m.lookup x.termKey = some x ∨ x = .subject t.subject ∨ x = t.object := by
      intro m t
      rw [lookup_insert_termKey, ← or_assoc]
      exact or_congr_left (lookup_insert_termKey m x (.subject t.subject))
    refine (Lib.foldl_iff (M := fun m : AList fun _ : List Char => Term =>
      m.lookup x.termKey = some x) hstep g.all ∅).trans (or_iff_right ?_)
    rw [AList.lookup_empty]
    exact nofun
  have hinsert : ∀ (m : AList fun _ : List Char => Term) (y : Term),
      (∀ k z, m.lookup k = some z → z.termKey = k) →
      ∀ k z, (m.insert y.termKey y).lookup k = some z → z.termKey = k := by
    intro m y h k z hz
    by_cases hk : k = y.termKey
    · rw [hk, AList.lookup_insert, Option.some.injEq] at hz
      rw [hk, hz]
    · rw [AList.lookup_insert_ne hk] at hz
      exact h k z hz
  -- An entry of the map can only be found under its own key, so listing and looking up agree.
  have hkeys : ∀ k z, g.nodeMap.lookup k = some z → z.termKey = k :=
    foldlRecOn (motive := fun m => ∀ k z, m.lookup k = some z → z.termKey = k) _ _
      (fun _ _ h => by cases (AList.lookup_empty _).symm.trans h)
      fun m hm t _ => hinsert _ t.object (hinsert m (.subject t.subject) hm)
  rw [← hmem, Graph.allNodes, mem_map]
  constructor
  · rintro ⟨⟨k, y⟩, hentry, rfl⟩
    have hlook : g.nodeMap.lookup k = some y := AList.mem_lookup_iff.mpr hentry
    rw [hkeys k y hlook]
    exact hlook
  · exact fun hlook => ⟨⟨x.termKey, x⟩, AList.mem_lookup_iff.mp hlook, rfl⟩

/-! ## The relation -/

mutual

/-- The relation of a path. -/
def PathRel (g : Graph) : Path → Term → Term → Prop
  | .iri u, x, y => ∃ t ∈ g.all, t.predicate = u ∧ ends t = (x, y)
  | .inv p, x, y => PathRel g p y x
  | .seq args, x, y => SeqRel g args x y
  | .alt args, x, y => AltRel g args x y
  | .mul p zero more, x, y =>
    (zero = true ∧ x = y ∧ g.IsNode x) ∨
      if more then TransGen (PathRel g p) x y else PathRel g p x y
  | .negated us, x, y => ∃ t ∈ g.all, t.predicate ∉ us ∧ ends t = (x, y)

/-- The relation of a sequence: composition. There is no empty sequence to
    relate anything. -/
def SeqRel (g : Graph) : List Path → Term → Term → Prop
  | [], _, _ => False
  | p :: ps, x, y =>
    match ps with
    | [] => PathRel g p x y
    | _ :: _ => ∃ m, PathRel g p x m ∧ SeqRel g ps m y

/-- The relation of an alternative: union. -/
def AltRel (g : Graph) : List Path → Term → Term → Prop
  | [], _, _ => False
  | p :: ps, x, y => PathRel g p x y ∨ AltRel g ps x y

end

section

variable {g : Graph}

/-! ## Where a path can lead -/

mutual

theorem pathRel_nodes : ∀ (p : Path) {x y : Term}, PathRel g p x y → g.IsNode x ∧ g.IsNode y
  | .iri _, _, _, h | .negated _, _, _, h => by
    obtain ⟨t, ht, -, hends⟩ := h
    exact isNode_of_ends ht hends
  | .inv p, _, _, h => (pathRel_nodes p h).symm
  | .seq args, _, _, h => seqRel_nodes args h
  | .alt args, _, _, h => altRel_nodes args h
  | .mul p zero more, x, y, h => by
    rcases h with ⟨-, rfl, hx⟩ | h
    · exact ⟨hx, hx⟩
    · cases more with
      | false => exact pathRel_nodes p h
      | true =>
        -- The first step leaves the one node, the last one enters the other.
        simp only [if_true] at h
        obtain ⟨m, hfirst, -⟩ := TransGen.head'_iff.mp h
        obtain ⟨m', -, hlast⟩ := TransGen.tail'_iff.mp h
        exact ⟨(pathRel_nodes p hfirst).1, (pathRel_nodes p hlast).2⟩

theorem seqRel_nodes : ∀ (ps : List Path) {x y : Term}, SeqRel g ps x y → g.IsNode x ∧ g.IsNode y
  | [], _, _, h => absurd h id
  | [p], _, _, h => pathRel_nodes p h
  | p :: q :: ps, x, y, h => by
    obtain ⟨m, hp, hrest⟩ := h
    exact ⟨(pathRel_nodes p hp).1, (seqRel_nodes (q :: ps) hrest).2⟩

theorem altRel_nodes : ∀ (ps : List Path) {x y : Term}, AltRel g ps x y → g.IsNode x ∧ g.IsNode y
  | [], _, _, h => absurd h id
  | p :: ps, _, _, h => by
    rcases h with h | h
    · exact pathRel_nodes p h
    · exact altRel_nodes ps h

end

/-! ## Flat paths -/

/-- The question a flat path puts to a backend. -/
def FlatSpec.query (spec : FlatSpec) (start : Term) : ReachabilityQuery :=
  ⟨start, spec.preds, spec.negated, spec.inverse⟩

/-- One direction of a flat path: the triples whose predicate it admits. -/
theorem FlatSpec.edge_iff (spec : FlatSpec) (start x y : Term) :
    (spec.query start).Edge g.all x y ↔
      ∃ t ∈ g.all, (if spec.preds = [] then True
          else if spec.negated then t.predicate ∉ spec.preds else t.predicate ∈ spec.preds) ∧
        ends t = if spec.inverse then (y, x) else (x, y) := by
  obtain ⟨preds, inverse, negated⟩ := spec
  refine exists_congr fun t => and_congr_right fun _ => and_congr ?_ ?_
  · simp only [FlatSpec.query, ReachabilityQuery.admits, List.isEmpty_iff]
    cases negated <;> by_cases hp : preds = [] <;> simp [hp]
  · simp only [FlatSpec.query, ends]
    cases inverse <;> simp [eq_comm, and_comm]

/-- Turning the direction around swaps the ends. -/
theorem FlatSpec.edge_inverse (spec : FlatSpec) (start x y : Term) :
    ((⟨spec.preds, !spec.inverse, spec.negated⟩ : FlatSpec).query start).Edge g.all x y ↔
      (spec.query start).Edge g.all y x := by
  rw [FlatSpec.edge_iff, FlatSpec.edge_iff]
  cases spec.inverse <;> rfl

mutual

/-- What a backend is asked for is the path's relation. A set of predicates that
    is not negated is never empty, so that the backend does not read it as
    "any predicate". -/
theorem flatten_spec : ∀ (p : Path) {spec : FlatSpec}, p.flatten = some spec →
    (spec.negated = false → spec.preds ≠ []) ∧
      ∀ start x y, PathRel g p x y ↔ (spec.query start).Edge g.all x y
  | .iri u, spec, h => by
    cases h
    refine ⟨fun _ => cons_ne_nil u [], ?_⟩
    intro start x y
    rw [FlatSpec.edge_iff, PathRel]
    simp
  | .negated us, spec, h => by
    cases h
    refine ⟨nofun, ?_⟩
    intro start x y
    rw [FlatSpec.edge_iff, PathRel]
    refine exists_congr fun t => and_congr_right fun _ => and_congr_left fun _ => ?_
    by_cases hus : us = []
    · simp [hus]
    · simp [hus]
  | .inv p, spec, h => by
    rw [Path.flatten, Option.map_eq_some_iff] at h
    obtain ⟨inner, hinner, rfl⟩ := h
    obtain ⟨hne, hrel⟩ := flatten_spec p hinner
    refine ⟨hne, ?_⟩
    intro start x y
    rw [FlatSpec.edge_inverse, PathRel, hrel start]
  | .alt args, spec, h => by
    obtain ⟨-, hne, hrel⟩ := flattenArgs_spec args none h (nofun)
    refine ⟨fun _ => hne, ?_⟩
    intro start x y
    rw [hrel start, PathRel]
    simp
  | .seq _, _, h | .mul _ _ _, _, h => nomatch h

/-- The loop over the arguments of an alternation: what has been gathered, and
    what is still to come. -/
theorem flattenArgs_spec : ∀ (args : List Path) (acc : Option FlatSpec) {out : FlatSpec},
    flattenArgs args acc = some out → (∀ a ∈ acc, a.negated = false ∧ a.preds ≠ []) →
    out.negated = false ∧ out.preds ≠ [] ∧ ∀ start x y,
      (out.query start).Edge g.all x y ↔
        (∃ a ∈ acc, (a.query start).Edge g.all x y) ∨ AltRel g args x y
  | [], acc, out, h, hacc => by
    rw [flattenArgs] at h
    obtain ⟨hneg, hne⟩ := hacc out h
    refine ⟨hneg, hne, ?_⟩
    intro start x y
    rw [h, AltRel]
    simp
  | p :: ps, acc, out, h, hacc => by
    rw [flattenArgs] at h
    split at h
    · cases h
    · rename_i a ha
      obtain ⟨hane, harel⟩ := flatten_spec p ha
      split at h
      · cases h
      · rename_i hneg
        have hneg : a.negated = false := by simpa using hneg
        -- Without an accumulator this argument starts one; with one, both must go the same way.
        split at h
        · obtain ⟨honeg, hone, horel⟩ := flattenArgs_spec ps _ h (by
            intro b hb
            cases hb
            exact ⟨rfl, hane hneg⟩)
          refine ⟨honeg, hone, ?_⟩
          intro start x y
          rw [horel start, AltRel, harel start]
          simp only [Option.mem_def, Option.some.injEq, exists_eq_left', reduceCtorEq, false_and,
            exists_false, false_or, FlatSpec.query, hneg]
        · rename_i b
          split at h
          · rename_i hinv
            obtain ⟨hbneg, hbne⟩ := hacc b rfl
            obtain ⟨honeg, hone, horel⟩ := flattenArgs_spec ps _ h (by
              intro c hc
              cases hc
              exact ⟨rfl, append_ne_nil_of_left_ne_nil hbne _⟩)
            refine ⟨honeg, hone, ?_⟩
            intro start x y
            rw [horel start, AltRel, harel start]
            simp only [Option.mem_def, Option.some.injEq, exists_eq_left', FlatSpec.edge_iff,
              append_eq_nil_iff, hbne, hane hneg, false_and, if_false, hbneg, hneg,
              Bool.false_eq_true, hinv, mem_append, or_and_right, and_or_left, exists_or,
              or_assoc]
          · cases h

end

end

end GoRdf
