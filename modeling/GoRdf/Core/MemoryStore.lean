import GoRdf.Core.Graph
import GoRdf.Core.Store
import GoRdf.Core.TripleIndex
import GoRdf.Lib.Search

/-!
# The Memory Store

`MemoryStore`: a `TripleIndex` for the default graph, and one for each named graph
under the key of its name. A named graph is created when it is first written to and
dropped when its last triple is removed. The readers of one graph are stated of its
index. Locks, contexts and namespaces are left out.

## Main definitions

* `TripleIndex.triplesWithLimit`: `TriplesWithLimit`.
* `TripleIndex.hasMatch`: `Exists`.
* `MemoryStore`: The store, with `add`, `addN`, `remove` and `set`.
* `MemoryStore.triples`, `MemoryStore.len`, `MemoryStore.contexts`: The readers.
* `MemoryStore.reachable`: `Reachable`.
* `MemoryStore.run`: The store after a sequence of operations.
-/

namespace GoRdf

open Lib

variable {ok : Char → Bool}

/-- What the callback of `TriplesWithLimit` closes over, with what has been passed
    on to a consumer that takes everything. -/
structure PageState (ok : Char → Bool) where
  skipped : Nat
  yielded : Nat
  passed : List (TripleOf ok)

/-- The callback of `TriplesWithLimit`. -/
def pageStep (limit offset : Int) (t : TripleOf ok) (st : PageState ok) : Bool × PageState ok :=
  if (st.skipped : Int) < offset then (true, { st with skipped := st.skipped + 1 })
  else if 0 < limit ∧ limit ≤ st.yielded then (false, st)
  else (true, { st with yielded := st.yielded + 1, passed := st.passed ++ [t] })

namespace TripleIndex

/-- `Triples`, for a consumer that takes everything. -/
def triples (x : TripleIndex ok) (pat : TriplePatternOf ok) : List (TripleOf ok) :=
  (x.each pat collect []).2

/-- `TriplesWithLimit`. -/
def triplesWithLimit (x : TripleIndex ok) (pat : TriplePatternOf ok) (limit offset : Int) :
    List (TripleOf ok) :=
  (x.each pat (pageStep limit offset) ⟨0, 0, []⟩).2.passed

/-- `Exists`. -/
def hasMatch (x : TripleIndex ok) (pat : TriplePatternOf ok) : Bool :=
  (x.each pat (fun _ _ => (false, true)) false).2

/-- The nodes that `Reachable` comes to from a node, in the order of `under`. -/
def neighbours (x : TripleIndex iriChar) (q : ReachabilityQuery) (node : Term) : List Term :=
  let k := node.termKey
  let top := if q.inverse then x.osp.m.lookup k else x.spo.m.lookup k
  ((eachTop top collect []).2.filter fun t => q.admits t.predicate).map fun t =>
    if q.inverse then .subject t.subject else t.object

/-- `Reachable` on an index. The frontiers follow each other in one queue, whose nodes are
    expanded in turn; `emitted` lets each node they come to through once. -/
def reachable (x : TripleIndex iriChar) (q : ReachabilityQuery) : List Term :=
  let st := Frontier.advance TermOf.termKey (x.neighbours q) (x.count + 2)
    { visited := [q.start.termKey], result := [], queue := [q.start] }
  fresh TermOf.termKey [] ((q.start :: st.result).flatMap (x.neighbours q))

end TripleIndex

/-! ## The store -/

/-- `namedGraph`. -/
structure NamedGraph (ok : Char → Bool) where
  name : TermOf ok
  idx : TripleIndex ok

/-- `MemoryStore`, without namespaces; `default` is `def` in the source. -/
structure MemoryStore (ok : Char → Bool) where
  default : TripleIndex ok
  named : GoMap (NamedGraph ok)

/-- `NewMemoryStore`. -/
def newMemoryStore : MemoryStore ok :=
  ⟨newTripleIndex, ∅⟩

namespace MemoryStore

/-- `index`. -/
def index (m : MemoryStore ok) (graph : Option (TermOf ok)) : Option (TripleIndex ok) :=
  match graphName graph with
  | none => some m.default
  | some n => (m.named.lookup n.termKey).map NamedGraph.idx

/-- `writeIndex`, and what is then done to the index it returns. -/
def writeIndex (m : MemoryStore ok) (graph : Option (TermOf ok))
    (f : TripleIndex ok → TripleIndex ok) : MemoryStore ok :=
  match graphName graph with
  | none => { m with default := f m.default }
  | some n =>
    let g := (m.named.lookup n.termKey).getD ⟨n, newTripleIndex⟩
    { m with named := m.named.insert n.termKey { g with idx := f g.idx } }

/-- `dropIfEmpty`. -/
def dropIfEmpty (m : MemoryStore ok) (graph : Option (TermOf ok)) : MemoryStore ok :=
  match graphName graph with
  | none => m
  | some n =>
    match m.named.lookup n.termKey with
    | some g => if g.idx.count = 0 then { m with named := m.named.erase n.termKey } else m
    | none => m

/-- `Add`. -/
def add (m : MemoryStore ok) (t : TripleOf ok) (graph : Option (TermOf ok)) : MemoryStore ok :=
  m.writeIndex graph fun x => x.add t

/-- `Set`. -/
def set (m : MemoryStore ok) (t : TripleOf ok) (graph : Option (TermOf ok)) : MemoryStore ok :=
  m.writeIndex graph fun x =>
    (x.removeMatching ⟨some t.subject, some t.predicate, none⟩).add t

/-- `AddN`. -/
def addN (m : MemoryStore ok) (quads : List (TripleOf ok × Option (TermOf ok))) : MemoryStore ok :=
  quads.foldl (fun m q => m.writeIndex q.2 fun x => x.add q.1) m

/-- `Remove`. -/
def remove (m : MemoryStore ok) (pat : TriplePatternOf ok) (graph : Option (TermOf ok)) :
    MemoryStore ok :=
  match m.index graph with
  | none => m
  | some _ => (m.writeIndex graph fun x => x.removeMatching pat).dropIfEmpty graph

/-- `Triples`, for a consumer that takes everything. -/
def triples (m : MemoryStore ok) (pat : TriplePatternOf ok) (graph : Option (TermOf ok)) :
    List (TripleOf ok) :=
  ((m.index graph).map fun x => x.triples pat).getD []

/-- `TriplesWithLimit`, for a consumer that takes everything. -/
def triplesWithLimit (m : MemoryStore ok) (pat : TriplePatternOf ok) (graph : Option (TermOf ok))
    (limit offset : Int) : List (TripleOf ok) :=
  ((m.index graph).map fun x => x.triplesWithLimit pat limit offset).getD []

/-- `Count`, which is `Cardinality`. -/
def count (m : MemoryStore ok) (pat : TriplePatternOf ok) (graph : Option (TermOf ok)) : Nat :=
  ((m.index graph).map fun x => x.cardinality pat).getD 0

/-- `Exists`. -/
def hasMatch (m : MemoryStore ok) (pat : TriplePatternOf ok) (graph : Option (TermOf ok)) : Bool :=
  ((m.index graph).map fun x => x.hasMatch pat).getD false

/-- `Len`. -/
def len (m : MemoryStore ok) (graph : Option (TermOf ok)) : Nat :=
  ((m.index graph).map TripleIndex.count).getD 0

/-- `Reachable`. -/
def reachable (m : MemoryStore iriChar) (graph : Option Term) (q : ReachabilityQuery) :
    List Term :=
  ((m.index graph).map fun x => x.reachable q).getD []

/-- `Contexts`, for a consumer that takes everything. -/
def contexts (m : MemoryStore ok) (triple : Option (TripleOf ok)) : List (TermOf ok) :=
  (m.named.entries.filter fun e => triple.all e.2.idx.has).map fun e => e.2.name

/-- One operation. -/
def apply (m : MemoryStore ok) : StoreOp ok → MemoryStore ok
  | .add t graph => m.add t graph
  | .addN quads => m.addN quads
  | .remove pat graph => m.remove pat graph
  | .set t graph => m.set t graph

/-- The store after a sequence of operations, starting empty. -/
def run (ops : List (StoreOp ok)) : MemoryStore ok :=
  ops.foldl apply newMemoryStore

end MemoryStore

end GoRdf
