import Mathlib.Data.List.Sort
import GoRdf.Core.Bgp

/-!
# Join Ordering

`orderBGP`: a greedy order of the triple patterns by how many triples each is
expected to match.

Costs are floats in the source. Which numbers those are makes no difference to
anything proved here, so the arithmetic on them is a parameter; a store's
cardinalities are arbitrary as well.

## Main definitions

* `Costs`: The arithmetic on costs.
* `BgpCandidate`: A pattern with what the planner knows of it.
* `probeCandidates`: Counting matches, in rounds or from a store's statistics.
* `orderBGP`: The greedy choice.
* `evalBGP`: Evaluation in the chosen order.
-/

namespace GoRdf

open Lib

/-- `float64`, as far as costs are computed with it. -/
structure Costs where
  Cost : Type
  ofNat : Nat → Cost
  div : Cost → Nat → Cost
  lt : Cost → Cost → Bool

/-- `bgpProbeStart`. -/
def bgpProbeStart : Nat := 64

/-- `bgpProbeLimit`. -/
def bgpProbeLimit : Nat := 1000

/-- `bgpPositionDivisor`, in the order subject, predicate, object. -/
def bgpPositionDivisor : List Nat := [100, 4, 10]

/-- `bgpCandidate`. The probe pattern is absent when the pattern cannot match. -/
structure BgpCandidate where
  tp : PatternTriple
  /-- The variable in subject, predicate and object position, if it is one the
      caller has left unbound. -/
  vars : List (Option String)
  fixed : Nat
  probe : TriplePattern
  probed : Bool
  count : Nat
  capped : Bool
  path : Bool

/-- The variable of a position that the caller has not bound. -/
def freeVar (row : Row) : PatternTerm → Option String
  | .var v => if v ∈ row then none else some v
  | _ => none

/-- `newBGPCandidate`. The positions are resolved one after the other, and the
    first that cannot be matched ends the probe pattern there. -/
def newBGPCandidate (pl : Prologue) (row : Row) : PatternTriple → BgpCandidate
  | ⟨s, .path p, o⟩ =>
    { tp := ⟨s, .path p, o⟩, vars := [freeVar row s, none, freeVar row o],
      fixed := (resolvePatternTerm pl row s).toList.length +
        (resolvePatternTerm pl row o).toList.length,
      probe := TriplePatternOf.any, probed := true, count := 0, capped := false, path := true }
  | ⟨s, .term p, o⟩ =>
    let vars := [freeVar row s, freeVar row p, freeVar row o]
    let unmatchable (fixed : Nat) (probe : TriplePattern) : BgpCandidate :=
      ⟨⟨s, .term p, o⟩, vars, fixed, probe, true, 0, false, false⟩
    match asSubjectEnd (resolvePatternTerm pl row s) with
    | none => unmatchable 0 TriplePatternOf.any
    | some subj =>
      match asPredicateEnd (resolvePatternTerm pl row p) with
      | none => unmatchable subj.toList.length ⟨subj, none, none⟩
      | some pred =>
        let obj := resolvePatternTerm pl row o
        ⟨⟨s, .term p, o⟩, vars,
          subj.toList.length + pred.toList.length + obj.toList.length,
          ⟨subj, pred, obj⟩, false, 0, false, false⟩

/-- `probeCount`: matches up to the limit, which a queryable store is told. -/
def probeCount (g : Graph) (pat : TriplePattern) (limit : Nat) : Nat :=
  let found :=
    match g.queryable with
    | some qs => qs.triplesWithLimit pat limit 0
    | none => g.triples pat
  min limit found.length

/-- One pattern of a probing round, unless the first round has its exact count.
    The accumulator is the limit, which an exact count lowers, and whether there
    was one. -/
def probeOne (g : Graph) (c : BgpCandidate) (acc : Nat × Bool) : BgpCandidate × Nat × Bool :=
  if c.probed && !c.capped then (c, acc)
  else
    let n := probeCount g c.probe acc.1
    let c := { c with count := n, probed := true, capped := decide (acc.1 ≤ n) }
    if c.capped then (c, acc) else (c, max 1 (min acc.1 n), true)

/-- A probing round over the candidates at the given indices. -/
def probeRound (g : Graph) :
    List Nat → List BgpCandidate → Nat × Bool → List BgpCandidate × Nat × Bool
  | [], cands, acc => (cands, acc)
  | i :: is, cands, acc =>
    match cands[i]? with
    | none => probeRound g is cands acc
    | some c =>
      let (c, acc) := probeOne g c acc
      probeRound g is (cands.set i c) acc

/-- The candidates to probe, most constrained first: `slices.SortStableFunc`. -/
def probeOrder (cands : List BgpCandidate) : List Nat :=
  let fixed (i : Nat) : Nat := (cands[i]?).elim 0 BgpCandidate.fixed
  ((List.range cands.length).filter fun i =>
    (cands[i]?).any fun c => !c.probed).insertionSort fun i j => fixed j ≤ fixed i

/-- `probeCandidates`. A second round runs only when the first has no exact
    count, and the limit of the last round is the count of what it capped. -/
def probeCandidates (g : Graph) (cands : List BgpCandidate) : List BgpCandidate :=
  match g.cardinality with
  | some card =>
    cands.map fun c => if c.probed then c else { c with count := card c.probe, probed := true }
  | none =>
    let order := probeOrder cands
    if order.isEmpty then cands
    else
      let (first, limit, exact) := probeRound g order cands (bgpProbeStart, false)
      let (last, limit, _) :=
        if exact || decide (bgpProbeLimit ≤ limit) then (first, limit, exact)
        else probeRound g order first (bgpProbeLimit, false)
      last.mapIdx fun i c => if order.contains i && c.capped then { c with count := limit } else c

/-- `bgpCostKey`. -/
structure BgpCostKey (K : Costs) where
  disconnected : Bool
  capped : Bool
  cost : K.Cost

/-- `bgpCostKey.less`. -/
def BgpCostKey.less {K : Costs} (k o : BgpCostKey K) : Bool :=
  if k.disconnected != o.disconnected then !k.disconnected
  else if k.capped != o.capped then !k.capped
  else K.lt k.cost o.cost

/-- `cost`, given the variables bound by the patterns already chosen. -/
def BgpCandidate.cost (K : Costs) (c : BgpCandidate) (bound : List String) (anyChosen : Bool) :
    BgpCostKey K :=
  if !c.path && c.count == 0 then ⟨false, false, K.ofNat 0⟩
  else
    let start := if c.path then K.ofNat (bgpProbeLimit * (1 + (2 - c.fixed))) else K.ofNat c.count
    let isBound (v : String) : Bool := bound.contains v
    let cost := (c.vars.zip bgpPositionDivisor).foldl
      (fun cost vd => if vd.1.any isBound then K.div cost vd.2 else cost) start
    let connected := c.vars.any fun v => v.any isBound
    let free := c.vars.any fun v => v.any fun v => !isBound v
    ⟨anyChosen && !connected && free, c.capped || c.path, cost⟩

/-- The scan for the cheapest candidate: its index, replaced on a strictly
    smaller key only, so that ties keep the written order. -/
def cheapest {K : Costs} (key : BgpCandidate → BgpCostKey K) :
    List BgpCandidate → Nat → Nat × BgpCostKey K → Nat
  | [], _, best => best.1
  | c :: cs, i, best =>
    cheapest key cs (i + 1) (if (key c).less best.2 then (i, key c) else best)

/-- The greedy loop of `orderBGP` over the candidates not used yet, one a round. -/
def chooseOrder (K : Costs) :
    Nat → List BgpCandidate → List String → Bool → List PatternTriple
  | 0, _, _, _ => []
  | _ + 1, [], _, _ => []
  | n + 1, c :: cs, bound, anyChosen =>
    let key (c : BgpCandidate) := c.cost K bound anyChosen
    let best := cheapest key cs 1 (0, key c)
    let pick := (c :: cs)[best]?.getD c
    pick.tp :: chooseOrder K n ((c :: cs).eraseIdx best) (pick.vars.reduceOption ++ bound) true

/-- `orderBGP`. -/
def orderBGP (K : Costs) (pl : Prologue) (g : Graph) (triples : List PatternTriple) (row : Row) :
    List PatternTriple :=
  if triples.length < 2 then triples
  else if triples.any fun tp => tp.subject.isVarTripleTerm || tp.object.isVarTripleTerm then triples
  else
    let cands := probeCandidates g (triples.map (newBGPCandidate pl row))
    chooseOrder K cands.length cands [] false

/-- `evalBGPUpTo`. -/
def evalBGPUpTo (K : Costs) (pl : Prologue) (g : Graph) (triples : List PatternTriple) (row : Row)
    (limit : Int) : List Row :=
  evalBGPInOrder pl g (orderBGP K pl g triples row) row limit

/-- `evalBGP`. -/
def evalBGP (K : Costs) (pl : Prologue) (g : Graph) (triples : List PatternTriple) (row : Row) :
    List Row :=
  evalBGPUpTo K pl g triples row 0

end GoRdf
