import Mathlib.Data.List.FinRange
import Mathlib.Logic.Function.Basic
import GoRdf.Core.SmallMap
import GoRdf.Core.Term

/-!
# Shape Rules and Their Strata

The rule sets of package `shacl` (SRL) and `Stratify`, which orders the rules so
that a rule runs after those it depends on. The dependencies are found by
comparing heads with body patterns; strata are then raised, edge by edge and in
place, until nothing changes or the passes are used up.

## Main definitions

* `SrlTerm`, `SrlBodyElement`, `SrlRule`, `RuleSet`: The syntax.
* `srlTermToKey`: The text that stands for a ground term.
* `dependencies`: The dependency graph of the rules.
* `relaxPass`, `relax`: The passes that raise the strata.
* `stratify`: `Stratify`.
-/

namespace GoRdf

/-! ## Syntax -/

/-- `SRLTerm`. -/
inductive SrlTerm
  | iri (value : String)
  | var (value : String)
  | literal (value datatype language : String)
  | blank (value : String)
  | triple (s p o : SrlTerm)
deriving DecidableEq

/-- `SRLTriple`. -/
structure SrlTriple where
  subject : SrlTerm
  predicate : SrlTerm
  object : SrlTerm
deriving DecidableEq

/-- `SRLBodyElement`. -/
inductive SrlBodyElement
  | triple (t : SrlTriple)
  | filter (expr : String)
  | not (body : List SrlBodyElement)
  | bind (expr : String) (var : String)

/-- `SRLRule`. -/
structure SrlRule where
  head : List SrlTriple
  body : List SrlBodyElement

/-- `RuleSet`, without base and prefixes, which only the parser reads. -/
structure RuleSet where
  dataBlocks : List (List SrlTriple)
  rules : List SrlRule

/-- `escapeLiteralValue`. -/
def escapeLiteralValue (cs : List Char) : List Char :=
  cs.flatMap escapeChar

/-- `srlTermToKey`. A variable has the empty key. -/
def srlTermToKey : SrlTerm → Key
  | .iri v => '<' :: v.toList ++ ['>']
  | .literal v dt lang =>
    if lang ≠ "" then '\x22' :: escapeLiteralValue v.toList ++ ['\x22', '@'] ++ lang.toList
    else '\x22' :: escapeLiteralValue v.toList ++ ['\x22', '^', '^', '<'] ++ dt.toList ++ ['>']
  | .blank v => '_' :: ':' :: v.toList
  | .triple s p o =>
    ['<', '<', '('] ++ srlTermToKey s ++ [' '] ++ srlTermToKey p ++ [' '] ++ srlTermToKey o ++
      [')', '>', '>']
  | .var _ => []

/-! ## Dependencies -/

/-- `collectBodyPatterns`. A `NOT` inside a `NOT` is passed over. -/
def collectBodyPatterns (elements : List SrlBodyElement) (negativeOnly : Bool) : List SrlTriple :=
  elements.flatMap fun elem =>
    match elem with
    | .triple t => if negativeOnly then [] else [t]
    | .not body =>
      if negativeOnly then
        body.filterMap fun ne =>
          match ne with
          | .triple t => some t
          | _ => none
      else []
    | _ => []

/-- `extractPredIRI`. -/
def extractPredIRI (t : SrlTriple) : String :=
  match t.predicate with
  | .iri v => v
  | .var _ => "?var"
  | _ => ""

/-- `patternsOverlap`. -/
def patternsOverlap (head body : List SrlTriple) : Bool :=
  head.any fun h =>
    let hp := extractPredIRI h
    hp != "" && body.any fun b =>
      let bp := extractPredIRI b
      hp == bp || hp == "?var" || bp == "?var"

/-- `termCouldMatch`. -/
def termCouldMatch (a b : SrlTerm) : Bool :=
  match a, b with
  | .var _, _ => true
  | _, .var _ => true
  | a, b => srlTermToKey a == srlTermToKey b

/-- `triplePatternCouldMatch`. -/
def triplePatternCouldMatch (head negPat : SrlTriple) : Bool :=
  termCouldMatch head.subject negPat.subject && termCouldMatch head.predicate negPat.predicate &&
    termCouldMatch head.object negPat.object

/-- `patternsCouldMatch`. -/
def patternsCouldMatch (head negBody : List SrlTriple) : Bool :=
  head.any fun h => negBody.any fun nb => triplePatternCouldMatch h nb

/-- `edge`: what a rule depends on; `target` is `to` in the source. -/
structure Dep (n : Nat) where
  target : Fin n
  negative : Bool
deriving DecidableEq

/-- `deps`: what each rule depends on. -/
def dependencies (rules : List SrlRule) (b : Fin rules.length) : List (Dep rules.length) :=
  let posBodyPats := collectBodyPatterns (rules.get b).body false
  let negBodyPats := collectBodyPatterns (rules.get b).body true
  (List.finRange rules.length).flatMap fun a =>
    let headPats := (rules.get a).head
    (if patternsOverlap headPats posBodyPats then [⟨a, false⟩] else []) ++
      if patternsCouldMatch headPats negBodyPats then [⟨a, true⟩] else []

/-! ## Strata -/

section

variable {n : Nat}

/-- `required`: the stratum an edge asks for. -/
def Dep.required (e : Dep n) (strata : Fin n → Nat) : Nat :=
  if e.negative then strata e.target + 1 else strata e.target

/-- The body of the innermost loop, with `changed`. -/
def relaxEdge (b : Fin n) (st : (Fin n → Nat) × Bool) (e : Dep n) : (Fin n → Nat) × Bool :=
  if st.1 b < e.required st.1 then (Function.update st.1 b (e.required st.1), true) else st

/-- One pass over all edges. -/
def relaxPass (deps : Fin n → List (Dep n)) (strata : Fin n → Nat) : (Fin n → Nat) × Bool :=
  (List.finRange n).foldl (fun st b => (deps b).foldl (relaxEdge b) st) (strata, false)

/-- The error of `Stratify`. -/
inductive StratifyError
  | negativeCycle
deriving DecidableEq

/-- The error's text. -/
def StratifyError.message : StratifyError → String
  | .negativeCycle => "ruleset is not stratifiable: negative cycle detected"

/-- The passes: they end when one changes nothing, when a stratum is out of range, or
    when none is left. -/
def relax (deps : Fin n → List (Dep n)) : Nat → (Fin n → Nat) →
    Except StratifyError (Fin n → Nat)
  | 0, strata => .ok strata
  | iter + 1, strata =>
    let st := relaxPass deps strata
    if st.2 then
      if (List.finRange n).any fun b => n < st.1 b then .error .negativeCycle
      else relax deps iter st.1
    else .ok st.1

/-- The check of the negative edges. -/
def negativeEdgesHold (deps : Fin n → List (Dep n)) (strata : Fin n → Nat) : Bool :=
  (List.finRange n).all fun b =>
    (deps b).all fun e => !(e.negative && decide (strata b ≤ strata e.target))

/-- The rules grouped by stratum. -/
def groupByStratum (strata : Fin n → Nat) : List (List (Fin n)) :=
  let maxStratum := (List.finRange n).foldl (fun m i => if strata i > m then strata i else m) 0
  (List.range (maxStratum + 1)).map fun s => (List.finRange n).filter fun i => strata i = s

end

/-- `Stratify`. -/
def stratify (rs : RuleSet) : Except StratifyError (List (List (Fin rs.rules.length))) := do
  if rs.rules.length = 0 then return []
  else
    let deps := dependencies rs.rules
    let strata ← relax deps (rs.rules.length + 1) fun _ => 0
    if negativeEdgesHold deps strata then return groupByStratum strata
    else .error .negativeCycle

end GoRdf
