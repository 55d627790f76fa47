import GoRdf.Core.ShaclGraph
import GoRdf.Lib.Search

/-!
# Evaluating Property Paths of Shapes

`evalPath` of package `shacl`: the value nodes a property path leads to from a
focus node.

A path is a tree, and the evaluation follows it. The loops of `transitiveClose`
are bounded by fuel: they queue a term at most once, and every term they queue
is the focus node or occurs in the graph. The inverse of a path that is not a
predicate is found by trying the terms of the graph one by one.

Two maps are ranged over, and the order is not fixed (`MapOrder`).

## Main definitions

* `PropertyPath`: The seven kinds of paths.
* `transitiveClose`: The breadth-first search of the two closures.
* `evalPath`: The value nodes of a path.
-/

namespace GoRdf

namespace Shacl

/-- `PropertyPath`, without the node it was read from. -/
inductive PropertyPath
  | predicate (pred : ShaclTerm)
  | inverse (sub : PropertyPath)
  | sequence (elements : List PropertyPath)
  | alternative (elements : List PropertyPath)
  | zeroOrMore (sub : PropertyPath)
  | oneOrMore (sub : PropertyPath)
  | zeroOrOne (sub : PropertyPath)

/-- The orders in which Go ranges over the maps of `evalInversePath`: the triples,
    which `Triples` collects by predicate, and the candidates. -/
structure MapOrder where
  triples : List ShaclTriple → List ShaclTriple
  terms : List ShaclTerm → List ShaclTerm
  triples_perm : ∀ ts, (triples ts).Perm ts
  terms_perm : ∀ ts, (terms ts).Perm ts

/-- The order in which the maps were filled. -/
def asFilled : MapOrder :=
  ⟨fun ts => ts, fun ts => ts, fun ts => .refl ts, fun ts => .refl ts⟩

/-- The subjects and objects of the triples. -/
def nodesOf (g : List ShaclTriple) : List ShaclTerm :=
  g.flatMap fun t => [t.subject, t.object]

/-- The map of `evalInversePath`. Of the terms with one key the last one stays. -/
def candidates (o : MapOrder) (g : List ShaclTriple) : List ShaclTerm :=
  o.terms (Lib.fresh ShaclTerm.termKey [] (nodesOf (o.triples g)).reverse)

/-- `transitiveClose`, over the values `next` of the path at a node. The focus
    node is marked from the start, and a result only if `includeSelf` says so. -/
def transitiveClose (fuel : Nat) (next : ShaclTerm → List ShaclTerm) (focus : ShaclTerm)
    (includeSelf : Bool) : List ShaclTerm :=
  let start : Lib.Frontier ShaclTerm (List Char) :=
    if includeSelf then
      { visited := [focus.termKey], result := [focus], queue := [focus] }
    else
      let new := Lib.fresh ShaclTerm.termKey [focus.termKey] (next focus)
      { visited := new.map ShaclTerm.termKey ++ [focus.termKey], result := new, queue := new }
  (start.advance ShaclTerm.termKey next fuel).result

variable (o : MapOrder) (g : List ShaclTriple)

mutual

/-- `evalPath`. -/
def evalPath : PropertyPath → ShaclTerm → List ShaclTerm
  | .predicate p, focus => objectsOf g focus p
  | .inverse (.predicate p), focus => subjectsOf g p focus
  | .inverse sub, focus =>
    (candidates o g).filter fun node => (evalPath sub node).any fun v => v.equal focus
  | .sequence elements, focus => evalSequencePath elements [focus]
  | .alternative elements, focus =>
    Lib.fresh ShaclTerm.termKey [] (alternatives elements focus)
  | .zeroOrMore sub, focus => transitiveClose (2 * g.length + 1) (evalPath sub) focus true
  | .oneOrMore sub, focus => transitiveClose (2 * g.length + 1) (evalPath sub) focus false
  | .zeroOrOne sub, focus =>
    focus :: Lib.fresh ShaclTerm.termKey [focus.termKey] (evalPath sub focus)

/-- The loop of `evalSequencePath`, from the nodes reached so far. -/
def evalSequencePath : List PropertyPath → List ShaclTerm → List ShaclTerm
  | [], current => current
  | elem :: elements, current =>
    evalSequencePath elements
      (Lib.fresh ShaclTerm.termKey [] (current.flatMap (evalPath elem)))

/-- The values `evalAlternativePath` meets. -/
def alternatives : List PropertyPath → ShaclTerm → List ShaclTerm
  | [], _ => []
  | elem :: elements, focus => evalPath elem focus ++ alternatives elements focus

end

end Shacl

end GoRdf
