import Mathlib.Data.Char
import Mathlib.Data.List.Lex
import GoRdf.Core.Decode
import GoRdf.Core.SmallMap
import GoRdf.Core.Store
import GoRdf.Lib.KeyValue

/-!
# The Badger Store

`BadgerStore` over an ordered key-value map. A triple of a graph is stored under
three keys, one an index, each holding the whole triple; a named graph that has
been written to is registered under a key of its own. The keys are the term keys
joined by NULs behind a letter for the family.

A transaction that fails leaves the map as it was, and a scan that meets a value
it cannot decode fails. Contexts, closed databases, snapshots and namespaces are
left out. A text's length counts characters where the source counts bytes.

## Main definitions

* `makeKey`, `makePrefixKey`, `scanPrefix`: The keys, and what a pattern scans.
* `encodeTriple`, `decodeTriple`: The stored values.
* `BadgerStore`: The map, with `add`, `addN`, `remove` and `set`.
* `BadgerStore.triples`, `BadgerStore.len`, `BadgerStore.contexts`: The readers.
* `BadgerStore.run`: The store after a sequence of operations.
-/

namespace GoRdf

open Lib

section

variable {ok : Char → Bool}

/-! ## Keys -/

/-- The families of keys: `pfxSPO`, `pfxPOS`, `pfxOSP`, `pfxCTX`. -/
inductive Family
  | spo
  | pos
  | osp
  | ctx
deriving DecidableEq

/-- The letter of a family. -/
def Family.letter : Family → Char
  | .spo => 's'
  | .pos => 'p'
  | .osp => 'o'
  | .ctx => 'c'

/-- `makeKey`. -/
def makeKey (fam : Family) (gk k₁ k₂ k₃ : Key) : Key :=
  fam.letter :: '\x00' :: gk ++ '\x00' :: k₁ ++ '\x00' :: k₂ ++ '\x00' :: k₃

/-- `spoKey`. -/
def spoKey (gk sk pk ok : Key) : Key :=
  makeKey .spo gk sk pk ok

/-- `posKey`. -/
def posKey (gk pk ok sk : Key) : Key :=
  makeKey .pos gk pk ok sk

/-- `ospKey`. -/
def ospKey (gk ok sk pk : Key) : Key :=
  makeKey .osp gk ok sk pk

/-- `makePrefixKey`. -/
def makePrefixKey (fam : Family) (gk : Key) (parts : List Key) : Key :=
  fam.letter :: '\x00' :: gk ++ '\x00' :: parts.flatMap fun part => part ++ ['\x00']

/-- `ctxKey`. -/
def ctxKey (gk : Key) : Key :=
  Family.ctx.letter :: '\x00' :: gk

/-- `graphKey`. -/
def graphKey (graph : Option (TermOf ok)) : Key :=
  if isDefaultGraph graph then [] else (graph.map TermOf.termKey).getD []

/-- `scanPrefix`. `OptTermKey` of an absent term is the empty key. -/
def scanPrefix (pat : TriplePatternOf ok) (gk : Key) : Key :=
  let sk := (pat.subject.map SubjectOf.termKey).getD []
  let pk := (pat.predicate.map URIRefOf.termKey).getD []
  let ok := (pat.object.map TermOf.termKey).getD []
  if sk ≠ [] ∧ pk ≠ [] then makePrefixKey .spo gk [sk, pk]
  else if sk ≠ [] ∧ ok ≠ [] then makePrefixKey .osp gk [ok, sk]
  else if sk ≠ [] then makePrefixKey .spo gk [sk]
  else if pk ≠ [] ∧ ok ≠ [] then makePrefixKey .pos gk [pk, ok]
  else if pk ≠ [] then makePrefixKey .pos gk [pk]
  else if ok ≠ [] then makePrefixKey .osp gk [ok]
  else makePrefixKey .spo gk []

/-! ## Values -/

/-- `binary.LittleEndian.PutUint32` of a length. -/
def putUint32 (n : Nat) : List Char :=
  [n, n / 2 ^ 8, n / 2 ^ 16, n / 2 ^ 24].map fun b => Char.ofNat (b % 256)

/-- `binary.LittleEndian.Uint32` at the front of a text. -/
def getUint32 (data : List Char) : Nat :=
  (data.take 4).foldr (fun c n => c.toNat + 2 ^ 8 * n) 0

/-- The parts of a stored triple. -/
inductive Part
  | subject
  | predicate
  | object
deriving DecidableEq

/-- The errors of `decodeTriple`. -/
inductive BadgerError
  | tooShort
  | truncatedLength (part : Part)
  | truncated (part : Part)
  | decode (part : Part) (err : DecodeError)
  | subjectKind
  | predicateKind
  /-- `Contexts` has met a graph key that is no term's. -/
  | graphKey (err : DecodeError)
deriving DecidableEq

/-- `encodeTriple`: three texts behind their lengths. -/
def encodeTriple (t : TripleOf ok) : List Char :=
  let sk := t.subject.termKey
  let pk := t.predicate.termKey
  let ok := t.object.termKey
  putUint32 sk.length ++ sk ++ putUint32 pk.length ++ pk ++ putUint32 ok.length ++ ok

/-- A text behind its length, and what follows. -/
def readField (part : Part) (data : List Char) : Except BadgerError (Key × List Char) :=
  if data.length < 4 then .error (.truncatedLength part)
  else
    let n := getUint32 data
    let rest := data.drop 4
    if rest.length < n then .error (.truncated part) else .ok (rest.take n, rest.drop n)

/-- `TermFromKey` of a part. -/
def decodePart (part : Part) (key : Key) : Except BadgerError (TermOf ok) :=
  (termFromKey key).mapError (.decode part)

/-- `decodeTriple`. -/
def decodeTriple (data : List Char) : Except BadgerError (TripleOf ok) := do
  if data.length < 12 then .error .tooShort
  else
    let (sk, data) ← readField .subject data
    let (pk, data) ← readField .predicate data
    let (ok, _) ← readField .object data
    let s ← decodePart .subject sk
    let p ← decodePart .predicate pk
    let o ← decodePart .object ok
    let s ← s.asSubject.elim (.error .subjectKind) .ok
    let p ← p.asURIRef.elim (.error .predicateKind) .ok
    return ⟨s, p, o⟩

/-! ## The store -/

/-- `BadgerStore`: what its database holds. -/
abbrev BadgerStore := KeyValue Key (List Char)

namespace BadgerStore

/-- The writes of one triple: the three indexes, and the registry for a named graph. -/
def put (kv : BadgerStore) (gk : Key) (t : TripleOf ok) : BadgerStore :=
  let sk := t.subject.termKey
  let pk := t.predicate.termKey
  let ok := t.object.termKey
  let val := encodeTriple t
  let kv := ((kv.insert (spoKey gk sk pk ok) val).insert (posKey gk pk ok sk) val).insert
    (ospKey gk ok sk pk) val
  if gk ≠ [] then kv.insert (ctxKey gk) [] else kv

/-- The deletions of one triple. The registry stays. -/
def drop (kv : BadgerStore) (gk sk pk ok : Key) : BadgerStore :=
  ((kv.erase (spoKey gk sk pk ok)).erase (posKey gk pk ok sk)).erase (ospKey gk ok sk pk)

/-- `Add`. -/
def add (kv : BadgerStore) (t : TripleOf ok) (graph : Option (TermOf ok)) : BadgerStore :=
  let gk := graphKey graph
  let key := spoKey gk t.subject.termKey t.predicate.termKey t.object.termKey
  if (kv.lookup key).isSome then kv else kv.put gk t

/-- `AddN`. -/
def addN (kv : BadgerStore) (quads : List (TripleOf ok × Option (TermOf ok))) : BadgerStore :=
  quads.foldl (fun kv q => kv.put (graphKey q.2) q.1) kv

/-- `iteratePrefix`, for a consumer that takes everything. -/
def iteratePrefix (kv : BadgerStore) (pfx : Key) : Except BadgerError (List (TripleOf ok)) :=
  (scan kv fun k => pfx.isPrefixOf k).mapM fun e => decodeTriple e.2

/-- `scanTriplesInTxn`: a lookup when every position is bound, or a scan. Each triple
    comes with its keys, which are the pattern's own in a lookup. -/
def scanTriples (kv : BadgerStore) (pat : TriplePatternOf ok) (gk : Key) :
    Except BadgerError (List (Key × Key × Key × TripleOf ok)) :=
  match pat with
  | ⟨some s, some p, some o⟩ =>
    match kv.lookup (spoKey gk s.termKey p.termKey o.termKey) with
    | none => .ok []
    | some val => (decodeTriple val).map fun t => [(s.termKey, p.termKey, o.termKey, t)]
  | pat => (kv.iteratePrefix (scanPrefix pat gk)).map fun ts =>
    ts.map fun t => (t.subject.termKey, t.predicate.termKey, t.object.termKey, t)

/-- `Remove`. -/
def remove (kv : BadgerStore) (pat : TriplePatternOf ok) (graph : Option (TermOf ok)) :
    Except BadgerError BadgerStore := do
  let gk := graphKey graph
  let toRemove ← kv.scanTriples pat gk
  return toRemove.foldl (fun kv tk => kv.drop gk tk.1 tk.2.1 tk.2.2.1) kv

/-- `Set`. -/
def set (kv : BadgerStore) (t : TripleOf ok) (graph : Option (TermOf ok)) :
    Except BadgerError BadgerStore := do
  let gk := graphKey graph
  let toDelete ← kv.scanTriples ⟨some t.subject, some t.predicate, none⟩ gk
  let kv := toDelete.foldl
    (fun kv old => kv.drop gk t.subject.termKey t.predicate.termKey old.2.2.1) kv
  return kv.put gk t

/-- `Triples`, for a consumer that takes everything. -/
def triples (kv : BadgerStore) (pat : TriplePatternOf ok) (graph : Option (TermOf ok)) :
    Except BadgerError (List (TripleOf ok)) :=
  (kv.scanTriples pat (graphKey graph)).map fun found => found.map fun tk => tk.2.2.2

/-- `Len`. -/
def len (kv : BadgerStore) (graph : Option (TermOf ok)) : Nat :=
  (scan kv fun k => (makePrefixKey .spo (graphKey graph) []).isPrefixOf k).length

/-- The graph names `Contexts` yields for a key of the registry: none for the empty
    key, or when the triple asked for is not in the graph. -/
def contextOf (kv : BadgerStore) (triple : Option (TripleOf ok)) (key : Key) :
    Except BadgerError (Option (TermOf ok)) := do
  let gk := key.drop 2
  if gk = [] then return none
  else
    let name ← (termFromKey gk).mapError .graphKey
    let holds : Bool :=
      triple.all fun t =>
        (kv.lookup (spoKey gk t.subject.termKey t.predicate.termKey t.object.termKey)).isSome
    return if holds then some name else none

/-- `Contexts`, for a consumer that takes everything. -/
def contexts (kv : BadgerStore) (triple : Option (TripleOf ok)) :
    Except BadgerError (List (TermOf ok)) := do
  let names ← (scan kv fun k => (ctxKey []).isPrefixOf k).mapM fun e => kv.contextOf triple e.1
  return names.reduceOption

end BadgerStore

/-! ## Operations -/

/-- One operation. The map stays as it was when the operation fails. -/
def BadgerStore.apply (kv : BadgerStore) : StoreOp ok → BadgerStore
  | .add t graph => kv.add t graph
  | .addN quads => kv.addN quads
  | .remove pat graph => (kv.remove pat graph).toOption.getD kv
  | .set t graph => (kv.set t graph).toOption.getD kv

/-- The store after a sequence of operations, starting empty. -/
def BadgerStore.run (ops : List (StoreOp ok)) : BadgerStore :=
  ops.foldl BadgerStore.apply ∅

end

end GoRdf
