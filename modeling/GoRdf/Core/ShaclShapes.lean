import GoRdf.Core.ShaclPath
import GoRdf.Core.Term
import GoRdf.Lib.Fallible

/-!
# Validating a Node Against a Shape

`validateShapeOnNode` of package `shacl`, with the constraints that refer to
other shapes, and `parseConstraints` for these constraints.

Shapes refer to each other by their nodes in the shapes graph, so the validation
follows references and not a tree. It carries a stack of the shapes and focus
nodes in progress and takes a pair it meets again for conforming. Here the depth
is bounded by fuel. A quick run, under `sh:or`, `sh:and` and `sh:not`, stops at
the first result.

Constraints that refer to no shape are given: which a shape has, and what they
report. So is the path read from a node of the shapes graph. Left out are the
constraints of SHACL 1.2 that refer to a shape (`sh:someValue`, `sh:memberShape`,
`sh:reifierShape`, `sh:nodeByExpression`), `sh:values` and annotations, and of a
result its path, severity and messages.

## Main definitions

* `rdfList`: `Graph.RDFList`.
* `Shape`, `Constraint`, `parseShape`: A shape, and how it is read.
* `discovered`: The shapes `parseShapes` makes an entry for.
* `evaluate`: `Evaluate` of the constraints that refer to shapes.
* `validateShapeOnNode`, `validatePropertyShape`: The validation.
-/

namespace GoRdf

namespace Shacl

/-! ## Vocabulary -/

def rdfFirst : ShaclTerm := .iri "http://www.w3.org/1999/02/22-rdf-syntax-ns#first"

def rdfRest : ShaclTerm := .iri "http://www.w3.org/1999/02/22-rdf-syntax-ns#rest"

def rdfNil : ShaclTerm := .iri "http://www.w3.org/1999/02/22-rdf-syntax-ns#nil"

def rdfTypeIri : ShaclTerm := .iri "http://www.w3.org/1999/02/22-rdf-syntax-ns#type"

def shAnd : ShaclTerm := .iri "http://www.w3.org/ns/shacl#and"

def shOr : ShaclTerm := .iri "http://www.w3.org/ns/shacl#or"

def shNot : ShaclTerm := .iri "http://www.w3.org/ns/shacl#not"

def shXone : ShaclTerm := .iri "http://www.w3.org/ns/shacl#xone"

def shNode : ShaclTerm := .iri "http://www.w3.org/ns/shacl#node"

def shProperty : ShaclTerm := .iri "http://www.w3.org/ns/shacl#property"

def shPath : ShaclTerm := .iri "http://www.w3.org/ns/shacl#path"

def shDeactivated : ShaclTerm := .iri "http://www.w3.org/ns/shacl#deactivated"

def shQualifiedValueShape : ShaclTerm := .iri "http://www.w3.org/ns/shacl#qualifiedValueShape"

def shQualifiedMinCount : ShaclTerm := .iri "http://www.w3.org/ns/shacl#qualifiedMinCount"

def shQualifiedMaxCount : ShaclTerm := .iri "http://www.w3.org/ns/shacl#qualifiedMaxCount"

def shQualifiedValueShapesDisjoint : ShaclTerm :=
  .iri "http://www.w3.org/ns/shacl#qualifiedValueShapesDisjoint"

/-- The classes whose instances `parseShapes` starts from. -/
def shapeClasses : List ShaclTerm :=
  [.iri "http://www.w3.org/ns/shacl#NodeShape", .iri "http://www.w3.org/ns/shacl#PropertyShape",
   .iri "http://www.w3.org/ns/shacl#ShapeClass"]

/-- The predicates whose subjects are shapes. -/
def subjectPredicates : List ShaclTerm :=
  [shPath, .iri "http://www.w3.org/ns/shacl#targetNode",
   .iri "http://www.w3.org/ns/shacl#targetClass",
   .iri "http://www.w3.org/ns/shacl#targetSubjectsOf",
   .iri "http://www.w3.org/ns/shacl#targetObjectsOf",
   .iri "http://www.w3.org/ns/shacl#targetWhere"]

/-- The predicates whose objects are shapes. -/
def objectPredicates : List ShaclTerm :=
  [shProperty, shNot, shNode, shQualifiedValueShape,
   .iri "http://www.w3.org/ns/shacl#someValue", .iri "http://www.w3.org/ns/shacl#memberShape",
   .iri "http://www.w3.org/ns/shacl#reifierShape",
   .iri "http://www.w3.org/ns/shacl#nodeByExpression",
   .iri "http://www.w3.org/ns/shacl#targetWhere"]

/-! ## Reading the shapes graph -/

/-- `Term.Value`. -/
def value : ShaclTerm → String
  | .none => ""
  | .iri v => v
  | .literal v _ _ => v
  | .blank v => v

/-- `parseInt`: `strconv.Atoi`, and 0 for what is no number. -/
def parseInt (t : ShaclTerm) : Int :=
  (parseInt64 (value t).toList).getD 0

/-- The loop of `Graph.RDFList`, with the cells met before. -/
def rdfListFrom (g : List ShaclTriple) : Nat → List (List Char) → ShaclTerm → List ShaclTerm
  | 0, _, _ => []
  | fuel + 1, visited, current =>
    if current.equal rdfNil then []
    else if visited.contains current.termKey then []
    else
      match objectsOf g current rdfFirst with
      | [] => []
      | first :: _ =>
        first :: match objectsOf g current rdfRest with
          | [] => []
          | rest :: _ => rdfListFrom g fuel (current.termKey :: visited) rest

/-- `Graph.RDFList`. A cell is the subject of a triple, so there are not more cells
    than triples. -/
def rdfList (g : List ShaclTriple) (head : ShaclTerm) : List ShaclTerm :=
  rdfListFrom g (g.length + 1) [] head

/-- A constraint: one that refers to no shape, or one that does. -/
inductive Constraint (π : Type)
  | given (c : π)
  | and (shapes : List ShaclTerm)
  | or (shapes : List ShaclTerm)
  | not (ref : ShaclTerm)
  | xone (shapes : List ShaclTerm)
  | node (ref : ShaclTerm)
  | qualified (ref : ShaclTerm) (minCount maxCount : Int) (disjoint : Bool)
      (siblings : List ShaclTerm)

/-- `Shape`. The nested property shapes are referred to by their nodes. -/
structure Shape (π : Type) where
  id : ShaclTerm
  path : Option PropertyPath
  constraints : List (Constraint π)
  deactivated : Bool
  properties : List ShaclTerm

/-- A result of the validation. -/
inductive ValidationResult
  | mk (focusNode value sourceShape : ShaclTerm) (component : String)
      (details : List ValidationResult)

/-- What a validation reads: the data graph, the shapes graph, and what is given.
    The constraints of a shape that refer to no shape stand `before` and `after`
    the others. What such a constraint reports at a focus node is up to the shape
    and the node, which determine the value nodes. -/
structure Context (π : Type) where
  order : MapOrder
  data : List ShaclTriple
  shapes : List ShaclTriple
  parsePath : ShaclTerm → PropertyPath
  before : ShaclTerm → List π
  after : ShaclTerm → List π
  report : π → ShaclTerm → ShaclTerm → List ValidationResult
  /-- The constraint is `sh:class`. -/
  isClass : π → Bool

section

variable {π : Type} (ctx : Context π)

/-- The sibling shapes `parseConstraints` collects: the qualified value shapes of
    the other property shapes of the parents. -/
def siblingShapes (id : ShaclTerm) : List ShaclTerm :=
  (subjectsOf ctx.shapes shProperty id).flatMap fun parent =>
    ((objectsOf ctx.shapes parent shProperty).filter fun sibling => !sibling.equal id).flatMap
      fun sibling => objectsOf ctx.shapes sibling shQualifiedValueShape

/-- Whether the first value of a property reads `true`. -/
def flag (id p : ShaclTerm) : Bool :=
  match objectsOf ctx.shapes id p with
  | [] => false
  | d :: _ => value d == "true"

/-- The first value of a property as a number, or the default. -/
def count (id p : ShaclTerm) (default : Int) : Int :=
  match objectsOf ctx.shapes id p with
  | [] => default
  | m :: _ => parseInt m

/-- The qualified value shape constraints of a shape. -/
def parseQualified (id : ShaclTerm) : List (Constraint π) :=
  let disjoint := flag ctx id shQualifiedValueShapesDisjoint
  let siblings := if disjoint then siblingShapes ctx id else []
  (objectsOf ctx.shapes id shQualifiedValueShape).map fun qv =>
    .qualified qv (count ctx id shQualifiedMinCount 0) (count ctx id shQualifiedMaxCount (-1))
      disjoint siblings

/-- `parseConstraints`. -/
def parseConstraints (id : ShaclTerm) : List (Constraint π) :=
  (ctx.before id).map .given ++
  (objectsOf ctx.shapes id shAnd).map (fun v => .and (rdfList ctx.shapes v)) ++
  (objectsOf ctx.shapes id shOr).map (fun v => .or (rdfList ctx.shapes v)) ++
  (objectsOf ctx.shapes id shNot).map .not ++
  (objectsOf ctx.shapes id shXone).map (fun v => .xone (rdfList ctx.shapes v)) ++
  (objectsOf ctx.shapes id shNode).map .node ++
  parseQualified ctx id ++
  (ctx.after id).map .given

/-- `parseShapeBasic` and `parseConstraints`. -/
def parseShape (id : ShaclTerm) : Shape π where
  id := id
  path := (objectsOf ctx.shapes id shPath).head?.map ctx.parsePath
  constraints := parseConstraints ctx id
  deactivated := flag ctx id shDeactivated
  properties := objectsOf ctx.shapes id shProperty

/-- The shapes `parseShapes` makes an entry for. -/
def discovered : List ShaclTerm :=
  shapeClasses.flatMap (subjectsOf ctx.shapes rdfTypeIri) ++
  ((ctx.shapes.filter fun t => subjectPredicates.contains t.predicate).map fun t => t.subject) ++
  ((ctx.shapes.filter fun t => objectPredicates.contains t.predicate).map fun t => t.object) ++
  (ctx.shapes.filter fun t => [shAnd, shOr, shXone].contains t.predicate).flatMap
    fun t => rdfList ctx.shapes t.object

/-- The lookup in `shapesMap`. -/
def shapeOf (ref : ShaclTerm) : Option (Shape π) :=
  if ref ∈ discovered ctx then some (parseShape ctx ref) else none

/-! ## Constraints that refer to shapes -/

/-- `makeResult`. -/
def makeResult (shape : Shape π) (focus vn : ShaclTerm) (component : String) : ValidationResult :=
  .mk focus vn shape.id ("http://www.w3.org/ns/shacl#" ++ component) []

/-- `quickFailure`. -/
def quickFailure : List ValidationResult :=
  [.mk .none .none .none "" []]

/-- The loop body of the qualified value shape: whether a value node counts. -/
def counts (validate : Bool → Shape π → ShaclTerm → Option (List ValidationResult))
    (quick : Bool) (s : Shape π) (disjoint : Bool) (siblings : List ShaclTerm) (vn : ShaclTerm) :
    Option Bool := do
  let rs ← validate quick s vn
  if !rs.isEmpty then return false
  else if disjoint then
    let any ← (siblings.filterMap (shapeOf ctx)).anyM fun sib =>
      (validate quick sib vn).map List.isEmpty
    return !any
  else return true

/-- `Evaluate`. The validation of a node against a shape is `validate`, with the
    quick run as its first argument. -/
def evaluate (validate : Bool → Shape π → ShaclTerm → Option (List ValidationResult))
    (quick : Bool) (shape : Shape π) (focus : ShaclTerm) (values : List ShaclTerm) :
    Constraint π → Option (List ValidationResult)
  | .given c =>
    let rs := ctx.report c shape.id focus
    -- Of these constraints only `sh:class` asks whether the run is quick.
    some (if quick && ctx.isClass c && !rs.isEmpty then quickFailure else rs)
  | .and shapes =>
    Lib.gather false (fun vn => do
      let all ← (shapes.filterMap (shapeOf ctx)).allM fun s =>
        (validate true s vn).map List.isEmpty
      return if all then [] else [makeResult shape focus vn "AndConstraintComponent"]) values []
  | .or shapes =>
    Lib.gather false (fun vn => do
      let any ← (shapes.filterMap (shapeOf ctx)).anyM fun s =>
        (validate true s vn).map List.isEmpty
      return if any then [] else [makeResult shape focus vn "OrConstraintComponent"]) values []
  | .not ref =>
    match shapeOf ctx ref with
    | none => some []
    | some s =>
      Lib.gather false (fun vn => do
        let rs ← validate true s vn
        return if rs.isEmpty then [makeResult shape focus vn "NotConstraintComponent"] else [])
        values []
  | .xone shapes =>
    Lib.gather false (fun vn => do
      let count ← Lib.countM (fun s => (validate quick s vn).map List.isEmpty)
        (shapes.filterMap (shapeOf ctx))
      return if count = 1 then [] else [makeResult shape focus vn "XoneConstraintComponent"])
      values []
  | .node ref =>
    match shapeOf ctx ref with
    | none => some []
    | some s =>
      Lib.gather false (fun vn => do
        let details ← validate quick s vn
        return if details.isEmpty then [] else
          [.mk focus vn shape.id "http://www.w3.org/ns/shacl#NodeConstraintComponent" details])
        values []
  | .qualified ref minCount maxCount disjoint siblings =>
    match shapeOf ctx ref with
    | none => some []
    | some s => do
        let count ← Lib.countM (counts ctx validate quick s disjoint siblings) values
        return (if 0 < minCount ∧ (count : Int) < minCount then
            [makeResult shape focus .none "QualifiedMinCountConstraintComponent"] else []) ++
          (if 0 ≤ maxCount ∧ maxCount < (count : Int) then
            [makeResult shape focus .none "QualifiedMaxCountConstraintComponent"] else [])

/-! ## The validation -/

/-- `evalPath` at the path of a shape, or nothing without one. -/
def propertyValueNodes (shape : Shape π) (focus : ShaclTerm) : List ShaclTerm :=
  match shape.path with
  | none => []
  | some path => evalPath ctx.order ctx.data path focus

/-- What the loops of the validation run over: a constraint, or a nested property
    shape with a node. -/
inductive Task (π : Type)
  | constraint (c : Constraint π)
  | property (shape : Shape π) (node : ShaclTerm)

/-- The two loops: the constraints, then each nested property shape that is not
    deactivated at each of the nodes. -/
def tasks (shape : Shape π) (nodes : List ShaclTerm) : List (Task π) :=
  shape.constraints.map .constraint ++
    ((shape.properties.map (parseShape ctx)).filter fun ps => !ps.deactivated).flatMap
      fun ps => nodes.map (.property ps)

/-- The bodies of the two loops. -/
def runTask (validateShape validateProperty :
      Bool → Shape π → ShaclTerm → Option (List ValidationResult))
    (quick : Bool) (shape : Shape π) (focus : ShaclTerm) (values : List ShaclTerm) :
    Task π → Option (List ValidationResult)
  | .constraint c => evaluate ctx validateShape quick shape focus values c
  | .property ps node => validateProperty quick ps node

mutual

/-- `validateShapeOnNode`, with the stack of the recursion guard. -/
def validateShapeOnNode : Nat → List (ShaclTerm × ShaclTerm) → Bool → Shape π → ShaclTerm →
    Option (List ValidationResult)
  | 0, _, _, _, _ => none
  | fuel + 1, guard, quick, s, focus =>
    if s.deactivated then some []
    else if s.path.isSome then validatePropertyShape fuel guard quick s focus
    else if (s.id, focus) ∈ guard then some []
    else
      Lib.gather quick (runTask ctx (validateShapeOnNode fuel ((s.id, focus) :: guard))
        (validatePropertyShape fuel ((s.id, focus) :: guard)) quick s focus [focus])
        (tasks ctx s [focus]) []

/-- `validatePropertyShape`. -/
def validatePropertyShape : Nat → List (ShaclTerm × ShaclTerm) → Bool → Shape π → ShaclTerm →
    Option (List ValidationResult)
  | 0, _, _, _, _ => none
  | fuel + 1, guard, quick, s, focus =>
    if (s.id, focus) ∈ guard then some []
    else
      let values := propertyValueNodes ctx s focus
      Lib.gather quick (runTask ctx (validateShapeOnNode fuel ((s.id, focus) :: guard))
        (validatePropertyShape fuel ((s.id, focus) :: guard)) quick s focus values)
        (tasks ctx s values) []

end

end

end Shacl

end GoRdf
