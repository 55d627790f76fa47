import Mathlib.Data.Char
import Mathlib.Data.List.Dedup
import Mathlib.Data.List.Lex
import GoRdf.Core.Term

/-!
# Skolem IRIs

`Skolemize` and `DeSkolemize` of package `graph`.

A blank node becomes the IRI made of a base and its label, or, with stable
identifiers, an identifier computed from the triples around it: a hash of them
that is refined round by round, with a number behind it for nodes that share it.
Blank nodes inside triple terms are replaced too, but have no part in the hashes.

Terms are those of the unchecked constructors. A graph is the list of its
triples, and `Add` puts a triple into it that is not there yet. The hash is a
parameter, of which only the alphabet of its text is known. So are the blank
nodes `NewBNode` makes up, which are all different.

## Main definitions

* `Digest`: The hash, in hexadecimal.
* `stableBNodeIDs`: The identifiers by structure.
* `mint`, `skolemTerm`, `skolemize`: Replacing blank nodes.
* `unmint`, `deSkolemize`: Replacing IRIs under the base.
-/

namespace GoRdf

namespace Skolem

/-- `term.URIRef`, of any text. -/
abbrev URIRef := URIRefOf anyChar

/-- `term.BNode`, with a label of any text. -/
abbrev BNode := BNodeOf anyChar

/-- `term.Subject`. -/
abbrev Subject := SubjectOf anyChar

/-- `term.Term`. -/
abbrev Term := TermOf anyChar

/-- `term.Triple`. -/
abbrev Triple := TripleOf anyChar

/-- `NewURIRefUnsafe`. -/
def uriRef (value : List Char) : URIRef :=
  ⟨String.ofList value, all_anyChar_ofList value⟩

/-- `BNode.Value`. -/
def label (b : BNode) : List Char :=
  b.value.toList

/-- `Graph.Add`. -/
def add (out : List Triple) (t : Triple) : List Triple :=
  if t ∈ out then out else out ++ [t]

/-- `skolemConfig`. -/
structure Config where
  basepath : List Char := ".well-known/genid/".toList
  stable : Bool := false

/-- `skolemPrefix`. -/
def skolemBase (authority basepath : List Char) : List Char :=
  (if authority.getLast? = some '/' then authority else authority ++ ['/']) ++
    if basepath ≠ [] ∧ basepath.getLast? ≠ some '/' then basepath ++ ['/'] else basepath

/-! ## Identifiers by structure -/

/-- The digits `hex.EncodeToString` writes. -/
def hexDigits : List Char := "0123456789abcdef".toList

/-- The first bytes of `sha256.Sum256`, in hexadecimal. -/
structure Digest where
  sum : List Char → List Char
  hex : ∀ text, ∀ c ∈ sum text, c ∈ hexDigits

section

variable (digest : Digest) (triples : List Triple)

/-- The label of a term that is a blank node. -/
def topLabel : Term → Option (List Char)
  | .subject (.bnode b) => some (label b)
  | _ => none

/-- The labels of the blank nodes a triple has as subject or object. -/
def topLabels (t : Triple) : List (List Char) :=
  [TermOf.subject t.subject, t.object].filterMap topLabel

/-- `labels`: the keys of `incident`, in order. -/
def labels : List (List Char) :=
  (triples.flatMap topLabels).dedup.mergeSort fun a b => decide (a ≤ b)

/-- `incident`: the triples of a blank node, each once. -/
def incident (l : List Char) : List Triple :=
  triples.filter fun t => (topLabels t).contains l

/-- The signatures by label. -/
abbrev Signatures := List (List Char × List Char)

/-- `repr`: a term as seen from the node `self`. -/
def repr (sig : Signatures) (self : List Char) : Term → List Char
  | .subject (.bnode b) =>
    if label b = self then "@self".toList
    else '_' :: ':' :: (sig.lookup (label b)).getD []
  | t => t.n3

/-- What the hash of a node is taken of. -/
def surroundings (sig : Signatures) (l : List Char) : List Char :=
  let parts := (incident triples l).map fun t =>
    repr sig l (.subject t.subject) ++ ' ' :: t.predicate.n3 ++ ' ' :: repr sig l t.object
  ['\n'].intercalate (parts.mergeSort fun a b => decide (a ≤ b))

/-- One round: every node is hashed with the signatures of the round before. -/
def nextSignatures (sig : Signatures) : Signatures :=
  (labels triples).map fun l => (l, digest.sum (surroundings triples sig l))

/-- `countDistinct`. -/
def countDistinct (sig : Signatures) : Nat :=
  (sig.map Prod.snd).dedup.length

/-- The loop over the rounds. It stops early when a round splits nothing. -/
def refine : Nat → Nat → Nat → Signatures → Signatures
  | 0, _, _, sig => sig
  | rounds + 1, round, classes, sig =>
    let next := nextSignatures digest triples sig
    let n := countDistinct next
    if n = classes ∧ 0 < round then next else refine rounds (round + 1) n next

/-- `skolemRounds`. -/
def skolemRounds : Nat := 16

/-- The identifier of the node that is the `k`-th with its signature. -/
def numbered (s : List Char) (k : Nat) : List Char :=
  if k = 0 then s else s ++ '-' :: Nat.toDigits 10 k

/-- The last loop: nodes that share a signature are numbered in the order of their
    labels. The signatures given out so far are in `seen`. -/
def number (sig : Signatures) : List (List Char) → List (List Char) →
    List (List Char × List Char)
  | [], _ => []
  | l :: ls, seen =>
    let s := (sig.lookup l).getD []
    (l, numbered s (seen.count s)) :: number sig ls (s :: seen)

/-- `stableBNodeIDs`. -/
def stableBNodeIDs : List (List Char × List Char) :=
  let start := (labels triples).map fun l => (l, [])
  number (refine digest triples skolemRounds 0 1 start) (labels triples) []

end

/-! ## Replacing blank nodes -/

/-- `mint`: a node without an identifier keeps its label. -/
def mint (base : List Char) (ids : List (List Char × List Char)) (b : BNode) : URIRef :=
  uriRef (base ++ (ids.lookup (label b)).getD (label b))

mutual

/-- `skolemSubject`. -/
def skolemSubject (mint : BNode → URIRef) : Subject → Subject
  | .bnode b => .uri (mint b)
  | .triple s p o => .triple (skolemSubject mint s) p (skolemTerm mint o)
  | .uri u => .uri u

/-- `skolemTerm`. -/
def skolemTerm (mint : BNode → URIRef) : Term → Term
  | .subject s => .subject (skolemSubject mint s)
  | .literal l => .literal l

end

/-- The triple `Skolemize` adds. -/
def skolemTriple (mint : BNode → URIRef) (t : Triple) : Triple :=
  ⟨skolemSubject mint t.subject, t.predicate, skolemTerm mint t.object⟩

/-- The identifiers `Skolemize` looks labels up in. -/
def skolemIDs (digest : Digest) (cfg : Config) (triples : List Triple) :
    List (List Char × List Char) :=
  if cfg.stable then stableBNodeIDs digest triples else []

/-- `Skolemize`. -/
def skolemize (digest : Digest) (authority : List Char) (cfg : Config) (triples : List Triple) :
    List Triple :=
  let base := skolemBase authority cfg.basepath
  let ids := skolemIDs digest cfg triples
  triples.foldl (fun out t => add out (skolemTriple (mint base ids) t)) []

/-! ## Replacing IRIs -/

/-- The blank nodes `NewBNode` makes up, one after the other. -/
structure Supply where
  node : Nat → BNode
  injective : ∀ m n, node m = node n → m = n

/-- `nodes`: the blank nodes given out so far, by IRI. -/
abbrev NodeMap := List (List Char × BNode)

section

variable (base : List Char) (supply : Supply)

/-- `unmint` of a subject. The result is one too, so the assertion of its type does
    not fail. -/
def unmintSubject (nodes : NodeMap) : Subject → Subject × NodeMap
  | .uri u =>
    if base.isPrefixOf u.value.toList then
      match nodes.lookup u.value.toList with
      | some b => (.bnode b, nodes)
      | none =>
        let b := supply.node nodes.length
        (.bnode b, (u.value.toList, b) :: nodes)
    else (.uri u, nodes)
  | s => (s, nodes)

/-- `unmint`. -/
def unmint (nodes : NodeMap) : Term → Term × NodeMap
  | .subject s =>
    let r := unmintSubject base supply nodes s
    (.subject r.1, r.2)
  | .literal l => (.literal l, nodes)

/-- The loop of `DeSkolemize`. -/
def deSkolemizeFrom : List Triple → NodeMap → List Triple → List Triple
  | [], _, out => out
  | t :: ts, nodes, out =>
    let s := unmintSubject base supply nodes t.subject
    let o := unmint base supply s.2 t.object
    deSkolemizeFrom ts o.2 (add out ⟨s.1, t.predicate, o.1⟩)

end

/-- `DeSkolemize`. -/
def deSkolemize (supply : Supply) (authority : List Char) (cfg : Config) (triples : List Triple) :
    List Triple :=
  deSkolemizeFrom (skolemBase authority cfg.basepath) supply triples [] []

end Skolem

end GoRdf
