import GoRdf.Core.Graph
import GoRdf.Lib.Traverse

/-!
# Property Paths

`Path.Eval` of package `paths`. A path evaluates to the list of pairs its
iterator yields, in order; a consumer that stops early sees a prefix.

Ends are as in the source: the subject end is a `Subject`, so a literal cannot
be passed there, while the object end is any term. Where the source needs a
subject and has a term, it asserts the type, and the branches taken when the
assertion fails are kept: `^p` forgets a literal object, a sequence drops a
literal in the middle, and a repetition does not go on from a literal.

Cancellation and store errors are left out.

## Main definitions

* `Path`: The path expressions.
* `Path.flatten`: The shape a backend can answer, `flatten`.
* `fwdFrom`, `bwdTo`: The traversals of a repetition.
* `Path.eval`: `Path.eval`, by direction and operator.
-/

namespace GoRdf

open Lib

/-- The path expressions. `mul` is `MulPath`: `zero` admits the empty path and
    `more` repetition. -/
inductive Path
  | iri (u : URIRef)
  | inv (arg : Path)
  | seq (args : List Path)
  | alt (args : List Path)
  | mul (path : Path) (zero more : Bool)
  | negated (excluded : List URIRef)

/-! ## Flat paths -/

/-- `flatSpec`: a predicate set with a direction and a polarity. -/
structure FlatSpec where
  preds : List URIRef
  inverse : Bool
  negated : Bool

mutual

/-- `flatten`. -/
def Path.flatten : Path → Option FlatSpec
  | .iri u => some ⟨[u], false, false⟩
  | .inv p => p.flatten.map fun s => ⟨s.preds, !s.inverse, s.negated⟩
  | .negated us => some ⟨us, false, true⟩
  | .alt args => flattenArgs args none
  | .seq _ => none
  | .mul _ _ _ => none

/-- The loop of `flatten` over an alternation; the accumulator is absent before
    the first argument. -/
def flattenArgs : List Path → Option FlatSpec → Option FlatSpec
  | [], acc => acc
  | p :: ps, acc =>
    match p.flatten with
    | none => none
    | some a =>
      if a.negated then none
      else
        match acc with
        | none => flattenArgs ps (some ⟨a.preds, a.inverse, false⟩)
        | some out =>
          if a.inverse = out.inverse then
            flattenArgs ps (some ⟨out.preds ++ a.preds, out.inverse, false⟩)
          else none

end

/-! ## Repetition -/

/-- A pair of ends. -/
abbrev Pair := Term × Term

/-- The key under which `emit` remembers a pair. -/
def pairKey (q : Pair) : List Char :=
  q.1.termKey ++ '|' :: q.2.termKey

/-- `emit`: a pair is yielded the first time only. -/
def emit (q : Pair) (out : List Pair) : List Pair :=
  if out.any fun r => pairKey r == pairKey q then out else out ++ [q]

/-- The object end admits this term. -/
def agreesObj (obj : Option Term) (o : Term) : Bool :=
  match obj with
  | none => true
  | some t => o.termKey == t.termKey

/-- The term may be traversed from. -/
def isSubject (t : Term) : Bool :=
  t.asSubject.isSome

/-- The inner path's objects from a node; nothing leaves a literal. -/
def stepFrom (inner : Option Subject → Option Term → List Pair) (t : Term) : List Term :=
  match t.asSubject with
  | some s => (inner (some s) none).map Prod.snd
  | none => []

/-- The inner path's subjects into a node. -/
def stepTo (inner : Option Subject → Option Term → List Pair) (t : Term) : List Term :=
  (inner none (some t)).map Prod.fst

/-- `fwdFrom`: emit `(origin, o)` for what is met from `node` on. -/
def fwdFrom (inner : Option Subject → Option Term → List Pair) (more : Bool) (origin : Term)
    (obj : Option Term) (fuel : Nat) (node : Subject) (out : List Pair) : List Pair :=
  (walk TermOf.termKey (stepFrom inner) (fun o => more && isSubject o)
    (fun o out => if agreesObj obj o then emit (origin, o) out else out)
    fuel (.subject node) ⟨[], out⟩).out

/-- `bwdTo`: emit `(s, target)` for what is met from `node` backwards. -/
def bwdTo (inner : Option Subject → Option Term → List Pair) (more : Bool) (target : Term)
    (fuel : Nat) (node : Term) (out : List Pair) : List Pair :=
  (walk TermOf.termKey (stepTo inner) (fun _ => more)
    (fun s out => emit (s, target) out) fuel node ⟨[], out⟩).out

/-- `evalViaStore`: the pairs a backend answers with, if it is asked and does not
    decline. -/
def evalViaStore (g : Graph) (flat : Option FlatSpec) (more : Bool) (subj : Option Subject)
    (obj : Option Term) : Option (List Pair) :=
  if more then
    g.reachability.bind fun rs =>
      flat.bind fun spec =>
        match subj, obj with
        | some s, _ =>
          (rs.reachable ⟨.subject s, spec.preds, spec.negated, spec.inverse⟩).map fun reached =>
            (reached.filter (agreesObj obj)).map fun n => (.subject s, n)
        | none, some o =>
          (rs.reachable ⟨o, spec.preds, spec.negated, !spec.inverse⟩).map fun reached =>
            reached.map fun n => (n, o)
        | none, none => none
  else none

/-- The deepest a traversal can nest: every node, and a start outside the graph. -/
def traversalFuel (g : Graph) : Nat :=
  g.allNodes.length + 1

/-- `MulPath.eval`, over the evaluation of the path under it. -/
def evalMul (g : Graph) (inner : Option Subject → Option Term → List Pair)
    (flat : Option FlatSpec) (zero more : Bool) (subj : Option Subject) (obj : Option Term) :
    List Pair :=
  match subj, obj with
  | some s, obj =>
    -- Forward from a known subject.
    let out :=
      if zero && agreesObj obj (.subject s) then emit (.subject s, .subject s) [] else []
    match evalViaStore g flat more (some s) obj with
    | some pairs => pairs.foldl (fun out q => emit q out) out
    | none => fwdFrom inner more (.subject s) obj (traversalFuel g) s out
  | none, some o =>
    -- Backward from a known object, which may be a literal.
    let out := if zero then emit (o, o) [] else []
    match evalViaStore g flat more none (some o) with
    | some pairs => pairs.foldl (fun out q => emit q out) out
    | none => bwdTo inner more o (traversalFuel g) o out
  | none, none =>
    -- From every node; a literal is not a place to start from.
    let out := if zero then g.allNodes.foldl (fun out n => emit (n, n) out) [] else []
    g.allNodes.foldl
      (fun out n =>
        match n.asSubject with
        | some s => fwdFrom inner more (.subject s) none (traversalFuel g) s out
        | none => out)
      out

/-! ## Evaluation -/

/-- The pair of a triple's ends. -/
def ends (t : Triple) : Pair :=
  (.subject t.subject, t.object)

mutual

/-- `Path.eval`. -/
def Path.eval (g : Graph) : Path → Option Subject → Option Term → List Pair
  | .iri u, subj, obj => (g.triples ⟨subj, some u, obj⟩).map ends
  | .inv p, subj, obj =>
    -- A literal object is no subject, and the end is left unbound.
    (p.eval g (obj.bind TermOf.asSubject) (subj.map TermOf.subject)).map Prod.swap
  | .seq args, subj, obj => evalSeq g args subj obj
  | .alt args, subj, obj => evalAlt g args subj obj
  | .mul p zero more, subj, obj => evalMul g (p.eval g) p.flatten zero more subj obj
  | .negated us, subj, obj =>
    ((g.triples ⟨subj, none, obj⟩).filter fun t =>
      !(us.map URIRefOf.termKey).contains t.predicate.termKey).map ends

/-- `SequencePath.eval`: the first path, then the rest from each of its ends. A
    literal end is dropped. -/
def evalSeq (g : Graph) : List Path → Option Subject → Option Term → List Pair
  | [], _, _ => []
  | p :: ps, subj, obj =>
    match ps with
    | [] => p.eval g subj obj
    | _ :: _ =>
      (p.eval g subj none).flatMap fun q =>
        match q.2.asSubject with
        | none => []
        | some mid => (evalSeq g ps (some mid) obj).map fun r => (q.1, r.2)

/-- `AlternativePath.eval`: one argument after the other. -/
def evalAlt (g : Graph) : List Path → Option Subject → Option Term → List Pair
  | [], _, _ => []
  | p :: ps, subj, obj => p.eval g subj obj ++ evalAlt g ps subj obj

end

end GoRdf
