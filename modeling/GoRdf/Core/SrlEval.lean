import Mathlib.Data.List.Dedup
import GoRdf.Core.ShaclGraph
import GoRdf.Core.Srl
import GoRdf.Lib.Maps

/-!
# Running Shape Rules

`EvalRuleSet`: the triples of the data graph and the `DATA` blocks are kept as
triples of texts, the rules of each stratum are applied to all of them until
nothing new comes or a thousand rounds are over, and what was not in the data
graph is read back from the texts.

Go ranges over the set of triples in any order; here it is a list, in the order
the triples were found. `FILTER` and `BIND` work on the text of an expression and
are parameters. The error of a failing store is left out, and adding a triple
with no subject, which ends in a nil dereference, is an error of its own.

## Main definitions

* `termToSrlKey`, `srlKeyToTerm`: The texts of terms.
* `matchElements`: The bindings that satisfy a body.
* `evalStratum`: The rounds of one stratum.
* `evalRuleSet`: `EvalRuleSet`.
-/

namespace GoRdf

open Lib

/-! ## Terms and their texts -/

/-- `RDF + "langString"`. -/
def rdfLangStringIRI : String := "http://www.w3.org/1999/02/22-rdf-syntax-ns#langString"

/-- `RDF + "dirLangString"`. -/
def rdfDirLangStringIRI : String := "http://www.w3.org/1999/02/22-rdf-syntax-ns#dirLangString"

/-- `XSD + "string"`. -/
def xsdStringIRI : String := "http://www.w3.org/2001/XMLSchema#string"

/-- `termToSRLKey`. -/
def termToSrlKey : ShaclTerm → Key
  | .iri v => '<' :: v.toList ++ ['>']
  | .literal v dt lang =>
    if lang ≠ "" then '\x22' :: escapeLiteralValue v.toList ++ ['\x22', '@'] ++ lang.toList
    else
      let dt := if dt = "" then xsdStringIRI else dt
      '\x22' :: escapeLiteralValue v.toList ++ ['\x22', '^', '^', '<'] ++ dt.toList ++ ['>']
  | .blank v => '_' :: ':' :: v.toList
  | .none => []

/-- `unescapeLiteralValue`. -/
def unescapeLiteralValue : List Char → List Char
  | [] => []
  | ['\x5c'] => ['\x5c']
  | '\x5c' :: c :: cs =>
    (if c = 'n' then '\n' else if c = 'r' then '\r' else if c = 't' then '\t' else c) ::
      unescapeLiteralValue cs
  | c :: cs => c :: unescapeLiteralValue cs

/-- The loop of `parseSRLKeyLiteral`: the text before the closing quote, and behind it. -/
def splitAtQuote : List Char → List Char × List Char
  | [] => ([], [])
  | ['\x5c'] => (['\x5c'], [])
  | '\x5c' :: c :: cs => ('\x5c' :: c :: (splitAtQuote cs).1, (splitAtQuote cs).2)
  | c :: cs =>
    if c = '\x22' then ([], cs) else (c :: (splitAtQuote cs).1, (splitAtQuote cs).2)

/-- `strings.Contains(lang, "--")`. -/
def hasDirection : List Char → Bool
  | '-' :: '-' :: _ => true
  | _ :: cs => hasDirection cs
  | [] => false

/-- The datatype a language tag stands for. -/
def tagDatatype (lang : List Char) : String :=
  if hasDirection lang then rdfDirLangStringIRI else rdfLangStringIRI

/-- `parseSRLKeyLiteral`, behind the opening quote. -/
def parseSrlKeyLiteral (key : List Char) : ShaclTerm :=
  let value := String.ofList (unescapeLiteralValue (splitAtQuote key).1)
  match (splitAtQuote key).2 with
  | '^' :: '^' :: '<' :: dt =>
    if dt.getLast? = some '>' then .literal value (String.ofList dt.dropLast) ""
    else .literal value xsdStringIRI ""
  | '@' :: lang => .literal value (tagDatatype lang) (String.ofList lang)
  | _ => .literal value xsdStringIRI ""

/-- `srlKeyToTerm`. -/
def srlKeyToTerm (key : Key) : ShaclTerm :=
  match key with
  | '<' :: cs =>
    if cs.getLast? = some '>' then .iri (String.ofList cs.dropLast)
    else .iri (String.ofList key)
  | '_' :: ':' :: cs => .blank (String.ofList cs)
  | '\x22' :: cs => parseSrlKeyLiteral cs
  | _ => .iri (String.ofList key)

/-! ## Matching -/

/-- `srlGroundTriple`. -/
structure SrlGroundTriple where
  s : Key
  p : Key
  o : Key
deriving DecidableEq

/-- `srlBinding`. -/
abbrev SrlBinding := PMap String Key

/-- `matchTermKey`. -/
def matchTermKey (pattern : SrlTerm) (groundKey : Key) (b : SrlBinding) : Option SrlBinding :=
  match pattern with
  | .var v =>
    match b.lookup v with
    | some existing => if existing = groundKey then some b else none
    | none => some (b.insert v groundKey)
  | t => if srlTermToKey t = groundKey then some b else none

/-- `matchGroundTriple`. -/
def matchGroundTriple (pattern : SrlTriple) (ground : SrlGroundTriple) (b : SrlBinding) :
    Option SrlBinding := do
  let b ← matchTermKey pattern.subject ground.s b
  let b ← matchTermKey pattern.predicate ground.p b
  matchTermKey pattern.object ground.o b

/-- `instantiateTerm`. -/
def instantiateTerm (t : SrlTerm) (b : SrlBinding) : Option Key :=
  match t with
  | .var v => b.lookup v
  | t => some (srlTermToKey t)

/-- `instantiate`. -/
def instantiate (t : SrlTriple) (b : SrlBinding) : Option SrlGroundTriple := do
  let s ← instantiateTerm t.subject b
  let p ← instantiateTerm t.predicate b
  let o ← instantiateTerm t.object b
  return ⟨s, p, o⟩

/-- `evalFilter` and `evalBindExpr`, on the text of an expression. -/
structure SrlExpressions where
  evalFilter : String → SrlBinding → Bool
  evalBindExpr : String → SrlBinding → Key

section

variable (ex : SrlExpressions) (triples : List SrlGroundTriple)

mutual

/-- The bindings that one element of a body leaves. -/
def matchElement : SrlBodyElement → SrlBinding → List SrlBinding
  | .triple t, b => triples.filterMap fun g => matchGroundTriple t g b
  | .filter expr, b => if ex.evalFilter expr b then [b] else []
  | .not body, b => if (matchElements body b).isEmpty then [b] else []
  | .bind expr v, b => [b.insert v (ex.evalBindExpr expr b)]

/-- `matchElements`. -/
def matchElements : List SrlBodyElement → SrlBinding → List SrlBinding
  | [], b => [b]
  | elem :: elements, b => (matchElement elem b).flatMap (matchElements elements)

end

/-- The new triples of one round. -/
def newTriples (rules : List SrlRule) : List SrlGroundTriple :=
  (rules.flatMap fun rule =>
    (matchElements ex triples rule.body ∅).flatMap fun b =>
      rule.head.filterMap fun h => (instantiate h b).filter fun gt => gt ∉ triples).dedup

end

/-- `evalStratum`, with the rounds it may still take. -/
def evalStratum (ex : SrlExpressions) (rules : List SrlRule) :
    Nat → List SrlGroundTriple → List SrlGroundTriple
  | 0, triples => triples
  | iter + 1, triples =>
    let new := newTriples ex triples rules
    if new = [] then triples else evalStratum ex rules iter (triples ++ new)

/-- The number of rounds. -/
def maxRounds : Nat := 1000

/-! ## Rule sets -/

/-- What can end `EvalRuleSet`. -/
inductive SrlEvalError
  | stratify (e : StratifyError)
  | nilSubject
deriving DecidableEq

/-- The triple `Graph.Add` stores: a literal has no subject form, and only the text of a
    predicate is kept. -/
def addedTriple (t : SrlGroundTriple) : Except SrlEvalError ShaclTriple :=
  let predicate :=
    match srlKeyToTerm t.p with
    | .iri v => v
    | .literal v _ _ => v
    | .blank v => v
    | .none => ""
  match srlKeyToTerm t.s with
  | .iri v => .ok ⟨.iri v, .iri predicate, srlKeyToTerm t.o⟩
  | .blank v => .ok ⟨.blank v, .iri predicate, srlKeyToTerm t.o⟩
  | _ => .error .nilSubject

/-- A triple of the data graph as texts. -/
def dataTriple (t : ShaclTriple) : SrlGroundTriple :=
  ⟨termToSrlKey t.subject, termToSrlKey t.predicate, termToSrlKey t.object⟩

/-- A triple of a `DATA` block as texts. -/
def blockTriple (t : SrlTriple) : SrlGroundTriple :=
  ⟨srlTermToKey t.subject, srlTermToKey t.predicate, srlTermToKey t.object⟩

/-- The texts evaluation starts with. -/
def loadedTriples (rs : RuleSet) (dataGraph : List ShaclTriple) : List SrlGroundTriple :=
  (dataGraph.map dataTriple ++ rs.dataBlocks.flatten.map blockTriple).dedup

/-- `EvalRuleSet`. -/
def evalRuleSet (ex : SrlExpressions) (rs : RuleSet) (dataGraph : List ShaclTriple) :
    Except SrlEvalError (List ShaclTriple) := do
  let origTriples := dataGraph.map dataTriple
  let strata ← (stratify rs).mapError .stratify
  let triples := strata.foldl
    (fun triples stratum => evalStratum ex (stratum.map rs.rules.get) maxRounds triples)
    (loadedTriples rs dataGraph)
  (triples.filter fun gt => gt ∉ origTriples).mapM addedTriple

end GoRdf
