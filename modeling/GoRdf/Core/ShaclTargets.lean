import GoRdf.Core.ShaclShapes
import GoRdf.Lib.Descent

/-!
# Classes, Lists and Targets

The walks of package `shacl` along the classes and the lists of a graph,
`resolveTargets`, which finds the focus nodes of a shape, and the value nodes of
`sh:values`.

A walk remembers the nodes it has been at. Those that are recursive in the source
are bounded by fuel here, which is the depth of the recursion, and have no result
where it runs out.

The rows of a query are Go maps. A loop over one visits its bindings in an order
that is not fixed, so a row is the list of them in that order. What a query
answers is given.

Left out are `sh:targetWhere` and the loop that closes `resolveTargets`, which
adds the nodes that name the shape by `sh:shape`. So `resolveTargets` here returns
the nodes found for the targets of the shape, before that loop.

## Main definitions

* `isSubClassOf`, `hasType`: Whether a node is an instance of a class.
* `isWellFormedList`: Whether a node is a list.
* `subClasses`: The classes below a class.
* `evalSPARQLValues`: `evalSPARQLValues`, after its query.
* `resolveTargets`: `resolveTargets`.
-/

namespace GoRdf

namespace Shacl

def rdfsSubClassOf : ShaclTerm := .iri "http://www.w3.org/2000/01/rdf-schema#subClassOf"

section

variable (g : List ShaclTriple)

/-! ## Walks -/

/-- The first value of a property. -/
def first (node p : ShaclTerm) : Option ShaclTerm :=
  (objectsOf g node p).head?

/-- `Graph.IsSubClassOf`. -/
def isSubClassOf (fuel : Nat) (sub super : ShaclTerm) : Option Bool :=
  (Lib.descend ShaclTerm.termKey (fun c => objectsOf g c rdfsSubClassOf) (fun c => c.equal super)
    (fun _ s => s) fuel sub [] ()).map fun r => r.1

/-- `Graph.HasType`. -/
def hasType (fuel : Nat) (node cls : ShaclTerm) : Option Bool :=
  (objectsOf g node rdfTypeIri).anyM fun t =>
    if t.equal cls then some true else isSubClassOf g fuel t cls

/-- `isWellFormedList`. The walk goes on where the cell has a value. -/
def isWellFormedList (fuel : Nat) (node : ShaclTerm) : Option Bool :=
  (Lib.descend ShaclTerm.termKey
    (fun c => if first g c rdfFirst = none then [] else (first g c rdfRest).toList)
    (fun c => c.equal rdfNil) (fun _ s => s) fuel node [] ()).map fun r => r.1

/-- `subClasses`. -/
def subClasses (cls : ShaclTerm) : List ShaclTerm :=
  (Lib.Frontier.advance ShaclTerm.termKey (subjectsOf g rdfsSubClassOf)
    (2 * g.length + 1) ⟨[cls.termKey], [], [cls]⟩).result

end

/-! ## Targets -/

/-- What `executeSPARQL` returns: rows, or an error. -/
abbrev SparqlAnswer := Except String (List (List (String × ShaclTerm)))

/-- The loop over the rows. It breaks after the first binding of each. -/
def firstBindings (rows : List (List (String × ShaclTerm))) : List ShaclTerm :=
  rows.filterMap fun row => row.head?.map Prod.snd

/-- `evalSPARQLValues`, after its query. -/
def evalSPARQLValues : SparqlAnswer → List ShaclTerm
  | .ok rows => firstBindings rows
  | .error _ => []

/-- `Target`. A class is a target by `sh:targetClass` or by being a shape. -/
inductive Target
  | node (value : ShaclTerm)
  | cls (value : ShaclTerm)
  | subjectsOf (value : ShaclTerm)
  | objectsOf (value : ShaclTerm)
  | sparql (answer : SparqlAnswer)

section

variable (g : List ShaclTriple)

/-- `instancesOf`. -/
def instancesOf (cls : ShaclTerm) : List ShaclTerm :=
  GoRdf.subjectsOf g rdfTypeIri cls

/-- The terms that a target passes to `addTarget`. -/
def targetNodes : Target → List ShaclTerm
  | .node v => [v]
  | .cls v => (v :: subClasses g v).flatMap (instancesOf g)
  | .subjectsOf v =>
    (g.filter fun t => t.predicate.indexKey = v.indexKey).map fun t => t.subject
  | .objectsOf v =>
    (g.filter fun t => t.predicate.indexKey = v.indexKey).map fun t => t.object
  | .sparql (.ok rows) => firstBindings rows
  | .sparql (.error _) => []

/-- `resolveTargets`, up to the loop over `sh:shape`. -/
def resolveTargets (targets : List Target) : List ShaclTerm :=
  Lib.fresh ShaclTerm.indexKey [] (targets.flatMap (targetNodes g))

end

end Shacl

end GoRdf
