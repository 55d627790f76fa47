import GoRdf.Core.SmallMap
import GoRdf.Core.Term
import GoRdf.Lib.Iterate

/-!
# The Triple Index

`tripleIndex` of package `store`: one graph's triples in three nested indexes
(SPO, POS, OSP), with the number of triples and a count per predicate.

An index maps a first key to a `Top`, which is a single triple or a level from
second keys to `Node`s, which in turn are single triples or leaves from third
keys to triples. Levels and leaves are small maps. The Go code shares levels
through pointers and changes them in place; here an operation returns the
changed index.

`insert` expects a triple that is not there, and `delete` one that is, as the
comments in the source say. Outside that, `delete` runs into a nil level in
Go; the branches here that return the index unchanged stand for it and are
never reached from `add` and `remove`.

## Main definitions

* `Node`, `Top`, `Index`: The levels of one index.
* `Index.insert`, `Index.delete`: Folding and unfolding singletons.
* `TripleIndex`: The three indexes with their counts.
* `TripleIndex.each`, `TripleIndex.cardinality`: Reading it.
* `IndexOp`, `TripleIndex.apply`: The operations, as a system that runs.
-/

namespace GoRdf

open Lib

/-- The position of a term in a triple: `posS`, `posP`, `posO`. -/
inductive Pos
  | s
  | p
  | o
deriving DecidableEq

variable {ok : Char → Bool}

/-- `keyAt`: the key a triple is filed under at a position. -/
def keyAt (t : TripleOf ok) : Pos → Key
  | .s => t.subject.termKey
  | .p => t.predicate.termKey
  | .o => t.object.termKey

/-- `leaf`: third key to triple. -/
abbrev Leaf (ok : Char → Bool) := SmallMap (TripleOf ok)

/-- `node`: a single triple, or a leaf of several. -/
inductive Node (ok : Char → Bool)
  | one (t : TripleOf ok)
  | many (l : Leaf ok)

/-- `level`: second key to node. -/
abbrev Level (ok : Char → Bool) := SmallMap (Node ok)

/-- `top`: a single triple, or a level. -/
inductive Top (ok : Char → Bool)
  | one (t : TripleOf ok)
  | many (l : Level ok)

/-- `index`: one ordering of the positions, first key to top. -/
structure Index (ok : Char → Bool) (p₁ p₂ p₃ : Pos) where
  m : GoMap (Top ok)

/-! ## Lookup -/

/-- `node.lookup`. -/
def Node.lookup (p₃ : Pos) (k₃ : Key) : Node ok → Option (TripleOf ok)
  | .one t => if keyAt t p₃ = k₃ then some t else none
  | .many l => l.get k₃

/-- The part of `index.lookup` below the first key. -/
def Top.lookup (p₂ p₃ : Pos) (k₂ k₃ : Key) : Top ok → Option (TripleOf ok)
  | .one t => if keyAt t p₂ = k₂ ∧ keyAt t p₃ = k₃ then some t else none
  | .many l => (l.get k₂).bind (Node.lookup p₃ k₃)

/-- The part of `index.pair` below the first key. -/
def Top.pair (p₂ : Pos) (k₂ : Key) : Top ok → Option (Node ok)
  | .one t => if keyAt t p₂ = k₂ then some (.one t) else none
  | .many l => l.get k₂

namespace Index

variable {p₁ p₂ p₃ : Pos}

/-- `newIndex`. -/
def empty : Index ok p₁ p₂ p₃ :=
  ⟨∅⟩

/-- `index.lookup`. -/
def lookup (idx : Index ok p₁ p₂ p₃) (k₁ k₂ k₃ : Key) : Option (TripleOf ok) :=
  (idx.m.lookup k₁).bind (Top.lookup p₂ p₃ k₂ k₃)

/-- `index.pair`; the zero node is `none`. -/
def pair (idx : Index ok p₁ p₂ p₃) (k₁ k₂ : Key) : Option (Node ok) :=
  (idx.m.lookup k₁).bind (Top.pair p₂ k₂)

end Index

/-! ## Insertion -/

/-- The `switch` of `insert`: the node after `t` joins what is there. -/
def Node.add (p₃ : Pos) (t : TripleOf ok) : Option (Node ok) → Node ok
  | none => .one t
  | some (.one u) => .many ((SmallMap.empty.set (keyAt u p₃) u).set (keyAt t p₃) t)
  | some (.many l) => .many (l.set (keyAt t p₃) t)

/-- The level of a top, a singleton unfolded into a level of its own. -/
def Top.level (p₂ : Pos) : Top ok → Level ok
  | .one u => SmallMap.empty.set (keyAt u p₂) (.one u)
  | .many l => l

/-- The part of `insert` below the first key. -/
def Top.add (p₂ p₃ : Pos) (t : TripleOf ok) (e : Top ok) : Top ok :=
  let l := e.level p₂
  .many (l.set (keyAt t p₂) (Node.add p₃ t (l.get (keyAt t p₂))))

/-- `index.insert`. -/
def Index.insert {p₁ p₂ p₃ : Pos} (idx : Index ok p₁ p₂ p₃) (k₁ : Key) (t : TripleOf ok) :
    Index ok p₁ p₂ p₃ :=
  match idx.m.lookup k₁ with
  | none => ⟨idx.m.insert k₁ (.one t)⟩
  | some e => ⟨idx.m.insert k₁ (e.add p₂ p₃ t)⟩

/-! ## Deletion -/

/-- The level after its node under `k₂` has lost the triple under `k₃`. A leaf
    left with one triple is folded into the node. -/
def Level.remove (l : Level ok) (k₂ k₃ : Key) : Level ok :=
  match l.get k₂ with
  | none => l
  | some (.one _) => l.delete k₂
  | some (.many l₃) =>
    let l' := l.set k₂ (.many (l₃.delete k₃))
    if (l₃.delete k₃).len = 1 then
      (l₃.delete k₃).values.foldl (fun l t => l.set k₂ (.one t)) l'
    else l'

/-- `index.delete`. An emptied level is dropped, and one left with a single
    triple is folded into the top; a single leaf stays where it is. -/
def Index.delete {p₁ p₂ p₃ : Pos} (idx : Index ok p₁ p₂ p₃) (k₁ k₂ k₃ : Key) :
    Index ok p₁ p₂ p₃ :=
  match idx.m.lookup k₁ with
  | none => idx
  | some (.one _) => ⟨idx.m.erase k₁⟩
  | some (.many l) =>
    let l' := Level.remove l k₂ k₃
    if l'.len = 0 then ⟨idx.m.erase k₁⟩
    else if l'.len = 1 then
      ⟨l'.values.foldl
        (fun m n => match n with
          | .one t => m.insert k₁ (.one t)
          | .many _ => m)
        (idx.m.insert k₁ (.many l'))⟩
    else ⟨idx.m.insert k₁ (.many l')⟩

/-! ## The three indexes -/

/-- `tripleIndex`. -/
structure TripleIndex (ok : Char → Bool) where
  spo : Index ok .s .p .o
  pos : Index ok .p .o .s
  osp : Index ok .o .s .p
  count : Nat
  predCount : AList fun _ : Key => Nat

/-- `newTripleIndex`. -/
def newTripleIndex : TripleIndex ok :=
  ⟨Index.empty, Index.empty, Index.empty, 0, ∅⟩

namespace TripleIndex

/-- The existence check of `add` and `remove`, and the whole of `has`. -/
def has (x : TripleIndex ok) (t : TripleOf ok) : Bool :=
  (x.spo.lookup (keyAt t .s) (keyAt t .p) (keyAt t .o)).isSome

/-- `add`: a triple that is present is not added again. -/
def add (x : TripleIndex ok) (t : TripleOf ok) : TripleIndex ok :=
  if x.has t then x
  else
    { spo := x.spo.insert (keyAt t .s) t
      pos := x.pos.insert (keyAt t .p) t
      osp := x.osp.insert (keyAt t .o) t
      count := x.count + 1
      predCount :=
        x.predCount.insert (keyAt t .p) ((x.predCount.lookup (keyAt t .p)).getD 0 + 1) }

/-- `x.predCount[pk]--`, and the entry goes when it reaches zero. -/
def dropPredicate (predCount : AList fun _ : Key => Nat) (pk : Key) :
    AList fun _ : Key => Nat :=
  let n := (predCount.lookup pk).getD 0 - 1
  if n = 0 then (predCount.insert pk n).erase pk else predCount.insert pk n

/-- `remove`: only a present triple is taken out and counted. -/
def remove (x : TripleIndex ok) (t : TripleOf ok) : TripleIndex ok :=
  if x.has t then
    { spo := x.spo.delete (keyAt t .s) (keyAt t .p) (keyAt t .o)
      pos := x.pos.delete (keyAt t .p) (keyAt t .o) (keyAt t .s)
      osp := x.osp.delete (keyAt t .o) (keyAt t .s) (keyAt t .p)
      count := x.count - 1
      predCount := dropPredicate x.predCount (keyAt t .p) }
  else x

end TripleIndex

/-! ## Reading -/

/-- `eachNode`; the zero node yields nothing. -/
def eachNode {σ : Type} (n : Option (Node ok)) (yield : TripleOf ok → σ → Bool × σ) (s : σ) :
    Bool × σ :=
  match n with
  | none => (true, s)
  | some (.one t) => yield t s
  | some (.many l) => forEach yield l.values s

/-- `eachTop`; the zero top yields nothing. -/
def eachTop {σ : Type} (e : Option (Top ok)) (yield : TripleOf ok → σ → Bool × σ) (s : σ) :
    Bool × σ :=
  match e with
  | none => (true, s)
  | some (.one t) => yield t s
  | some (.many l) => forEach (fun n => eachNode (some n) yield) l.values s

/-- `node.len`. -/
def Node.len : Node ok → Nat
  | .one _ => 1
  | .many l => l.len

/-- `top.len`: the loop that adds up the nodes. -/
def Top.len : Top ok → Nat
  | .one _ => 1
  | .many l => l.values.foldl (fun c n => c + n.len) 0

/-- `OptTermKey` of a subject: the empty key stands for a wildcard. -/
def optSubjectKey : Option (SubjectOf ok) → Key
  | none => []
  | some s => s.termKey

/-- `OptPredKey`. -/
def optPredKey : Option (URIRefOf ok) → Key
  | none => []
  | some p => p.termKey

/-- `OptTermKey` of a term. -/
def optTermKey : Option (TermOf ok) → Key
  | none => []
  | some t => t.termKey

namespace TripleIndex

/-- `each`: every case with two or three keys bound goes straight to the index
    keyed by them. -/
def each {σ : Type} (x : TripleIndex ok) (pat : TriplePatternOf ok)
    (yield : TripleOf ok → σ → Bool × σ) (s : σ) : Bool × σ :=
  let sk := optSubjectKey pat.subject
  let pk := optPredKey pat.predicate
  let ok := optTermKey pat.object
  if sk ≠ [] ∧ pk ≠ [] ∧ ok ≠ [] then
    match x.spo.lookup sk pk ok with
    | some t => yield t s
    | none => (true, s)
  else if sk ≠ [] ∧ pk ≠ [] then eachNode (x.spo.pair sk pk) yield s
  else if pk ≠ [] ∧ ok ≠ [] then eachNode (x.pos.pair pk ok) yield s
  else if sk ≠ [] ∧ ok ≠ [] then eachNode (x.osp.pair ok sk) yield s
  else if sk ≠ [] then eachTop (x.spo.m.lookup sk) yield s
  else if pk ≠ [] then eachTop (x.pos.m.lookup pk) yield s
  else if ok ≠ [] then eachTop (x.osp.m.lookup ok) yield s
  else forEach (fun e => eachTop (some e.2) yield) x.spo.m.entries s

/-- `removeMatching`: the matches are collected before any is removed. -/
def removeMatching (x : TripleIndex ok) (pat : TriplePatternOf ok) : TripleIndex ok :=
  (x.each pat collect []).2.foldl remove x

/-- The number of triples under an optional node. -/
def nodeLen (n : Option (Node ok)) : Nat :=
  (n.map Node.len).getD 0

/-- The number of triples under an optional top. -/
def topLen (e : Option (Top ok)) : Nat :=
  (e.map Top.len).getD 0

/-- `cardinality`: the number of matches, from index sizes. -/
def cardinality (x : TripleIndex ok) (pat : TriplePatternOf ok) : Nat :=
  let sk := optSubjectKey pat.subject
  let pk := optPredKey pat.predicate
  let ok := optTermKey pat.object
  if sk ≠ [] ∧ pk ≠ [] ∧ ok ≠ [] then
    match x.spo.lookup sk pk ok with
    | some _ => 1
    | none => 0
  else if sk ≠ [] ∧ pk ≠ [] then nodeLen (x.spo.pair sk pk)
  else if pk ≠ [] ∧ ok ≠ [] then nodeLen (x.pos.pair pk ok)
  else if sk ≠ [] ∧ ok ≠ [] then nodeLen (x.osp.pair ok sk)
  else if pk ≠ [] then (x.predCount.lookup pk).getD 0
  else if sk ≠ [] then topLen (x.spo.m.lookup sk)
  else if ok ≠ [] then topLen (x.osp.m.lookup ok)
  else x.count

end TripleIndex

/-! ## Runs -/

/-- One operation on a graph's index. -/
inductive IndexOp (ok : Char → Bool)
  | add (t : TripleOf ok)
  | remove (t : TripleOf ok)
  | removeMatching (pat : TriplePatternOf ok)

/-- What one operation does to the index. -/
def TripleIndex.apply (x : TripleIndex ok) : IndexOp ok → TripleIndex ok
  | .add t => x.add t
  | .remove t => x.remove t
  | .removeMatching pat => x.removeMatching pat

/-- The index after a sequence of operations on an empty one. -/
def TripleIndex.run (ops : List (IndexOp ok)) : TripleIndex ok :=
  ops.foldl TripleIndex.apply newTripleIndex

end GoRdf
