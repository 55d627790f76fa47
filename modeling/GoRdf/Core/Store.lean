import GoRdf.Core.Term

/-!
# What Every Store Does

The conventions and the changing operations of the `Store` interface, which the
memory store and the Badger store implement. A graph is addressed by a term, and
by nothing or by a reserved IRI if it is the default graph.

## Main definitions

* `isDefaultGraph`: `IsDefaultGraph`.
* `graphName`: The graph a context addresses.
* `StoreOp`: The operations that change a store.
-/

namespace GoRdf

/-- `DefaultGraphIRI`. -/
def defaultGraphIRI : String := "urn:x-rdflib:default"

section

variable {ok : Char → Bool}

/-- `IsDefaultGraph`. -/
def isDefaultGraph : Option (TermOf ok) → Bool
  | none => true
  | some (.subject (.uri u)) => u.value == defaultGraphIRI
  | some _ => false

/-- The graph a context addresses: none is the default graph. -/
def graphName (graph : Option (TermOf ok)) : Option (TermOf ok) :=
  if isDefaultGraph graph then none else graph

theorem graphName_graphName (graph : Option (TermOf ok)) :
    graphName (graphName graph) = graphName graph := by
  unfold graphName
  by_cases h : isDefaultGraph graph = true
  · rw [if_pos h]
    rfl
  · rw [if_neg h, if_neg h]

/-- The operations that change a store: `Add`, `AddN`, `Remove` and `Set`. -/
inductive StoreOp (ok : Char → Bool)
  | add (t : TripleOf ok) (graph : Option (TermOf ok))
  | addN (quads : List (TripleOf ok × Option (TermOf ok)))
  | remove (pat : TriplePatternOf ok) (graph : Option (TermOf ok))
  | set (t : TripleOf ok) (graph : Option (TermOf ok))

end

end GoRdf
