import Mathlib.Data.List.AList
import Mathlib.Logic.Relation
import GoRdf.Core.Term

/-!
# Graphs and What a Store Offers

A graph as its readers see it: the triples that match a pattern, in whatever
order the store yields them, and the optional interfaces a store may
implement.

The laws in the structure are the contract of package `store`, which its
conformance suite checks: a pattern yields each of its matches once, and an
optional interface agrees with plain reading. A triple index gives such a
graph (`Theory.StoreGraph`), so the contract is not empty. Orders are
arbitrary but belong to the graph value; a store whose order changes between
two reads is two graph values.

Only `cardinality` comes without a law. The planner may be given any numbers.

## Main definitions

* `ReachabilityQuery`, `Reachability`: `ReachabilityStore`.
* `Queryable`: `QueryableStore`.
* `Graph`: A graph with the interfaces of its store.
* `Graph.allNodes`: `AllNodes`.
-/

namespace GoRdf

/-- The pattern without any bound position. -/
def TriplePatternOf.any {ok : Char → Bool} : TriplePatternOf ok :=
  ⟨none, none, none⟩

/-- `ReachabilityQuery`, without the depth bound the path evaluator never sets. -/
structure ReachabilityQuery where
  start : Term
  predicates : List URIRef
  negated : Bool
  inverse : Bool

namespace ReachabilityQuery

/-- Which edges may be traversed. An empty predicate set means any, in both
    polarities. -/
def admits (q : ReachabilityQuery) (u : URIRef) : Bool :=
  if q.predicates.isEmpty then true
  else if q.negated then !q.predicates.contains u
  else q.predicates.contains u

/-- One edge of the traversal, in the direction the query asks for. -/
def Edge (ts : List Triple) (q : ReachabilityQuery) (x y : Term) : Prop :=
  ∃ t ∈ ts, q.admits t.predicate = true ∧
    if q.inverse then x = t.object ∧ y = .subject t.subject
    else x = .subject t.subject ∧ y = t.object

end ReachabilityQuery

/-- `ReachabilityStore`: an answer is the set of nodes at distance one or more,
    and a backend is free to decline. -/
structure Reachability (ts : List Triple) where
  reachable : ReachabilityQuery → Option (List Term)
  nodup : ∀ q l, reachable q = some l → l.Nodup
  mem_iff : ∀ q l, reachable q = some l →
    ∀ x, x ∈ l ↔ Relation.TransGen (q.Edge ts) q.start x

/-- `QueryableStore`. A limit of zero or less means no limit, a negative offset
    counts as zero, and paging is over some order of the matches. -/
structure Queryable (triples : TriplePattern → List Triple) where
  triplesWithLimit : TriplePattern → Int → Int → List Triple
  count : TriplePattern → Nat
  hasMatch : TriplePattern → Bool
  limit_spec : ∀ pat limit offset, ∃ l : List Triple, l.Perm (triples pat) ∧
    triplesWithLimit pat limit offset =
      if 0 < limit then (l.drop offset.toNat).take limit.toNat else l.drop offset.toNat
  count_spec : ∀ pat, count pat = (triples pat).length
  hasMatch_spec : ∀ pat, hasMatch pat = !(triples pat).isEmpty

/-- A graph: what `Triples` yields for a pattern, and what else its store can do. -/
structure Graph where
  triples : TriplePattern → List Triple
  nodup : ∀ pat, (triples pat).Nodup
  mem_iff : ∀ pat t, t ∈ triples pat ↔ t ∈ triples TriplePatternOf.any ∧ pat.matches t = true
  cardinality : Option (TriplePattern → Nat)
  queryable : Option (Queryable triples)
  reachability : Option (Reachability (triples TriplePatternOf.any))

namespace Graph

/-- All triples of the graph. -/
def all (g : Graph) : List Triple :=
  g.triples TriplePatternOf.any

/-- The graph of a list of triples, on a store without optional interfaces. -/
def ofList (ts : List Triple) (h : ts.Nodup) : Graph where
  triples := fun pat => ts.filter fun t => pat.matches t
  nodup := fun _ => h.filter _
  mem_iff := by
    intro pat t
    have hany : TriplePatternOf.any.matches t = true := rfl
    rw [List.mem_filter, List.mem_filter, hany]
    exact ⟨fun ht => ⟨⟨ht.1, rfl⟩, ht.2⟩, fun ht => ⟨ht.1.1, ht.2⟩⟩
  cardinality := none
  queryable := none
  reachability := none

/-- The map `AllNodes` collects: key to node, subjects and objects alike. -/
def nodeMap (g : Graph) : AList fun _ : List Char => Term :=
  g.all.foldl
    (fun m t => (m.insert t.subject.termKey (.subject t.subject)).insert t.object.termKey t.object)
    ∅

/-- `AllNodes`. -/
def allNodes (g : Graph) : List Term :=
  g.nodeMap.entries.map fun e => e.2

end Graph

end GoRdf
