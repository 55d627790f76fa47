import Mathlib.Data.List.DropRight
import Mathlib.Data.Nat.Digits.Defs
import GoRdf.Core.Decode
import GoRdf.Core.Store

/-!
# N-Quads

The `Writer` of package `nq` with the serializer of `ntsyntax` under it, and the
parser with the `LineParser` under that.

Lines are lists of characters. The source walks over bytes, but every character
it looks for is ASCII, and no byte of a longer character is. Only where an escape
ends in the middle of such a character can the two disagree, and then on which
error it is.

A reader takes what is left of a line and returns what it leaves. The blank nodes
of a document come from a `scope`, which gives each label its node. The cache of
IRIs changes no result and is left out, like line numbers, handlers and contexts.

## Main definitions

* `serializeTerm`, `writeQuad`: `Term` and `Writer.Write`.
* `readSubject`, `readPredicate`, `readObject`, `readGraphLabel`: The readers.
* `parseNQLine`, `parseNQuads`: `parseNQLine`, and `Parse` for a whole document.
-/

namespace GoRdf

/-! ## Characters -/

/-- `isLetter`. -/
def isLetter (c : Char) : Bool :=
  (decide ('a' ≤ c) && decide (c ≤ 'z')) || (decide ('A' ≤ c) && decide (c ≤ 'Z'))

/-- The code point lies in a range. -/
def inRange (c : Char) (lo hi : Nat) : Bool :=
  decide (lo ≤ c.toNat) && decide (c.toNat ≤ hi)

/-- `isPNCharsBase`. -/
def isPNCharsBase (c : Char) : Bool :=
  isLetter c || inRange c 0x00C0 0x00D6 || inRange c 0x00D8 0x00F6 || inRange c 0x00F8 0x02FF ||
    inRange c 0x0370 0x037D || inRange c 0x037F 0x1FFF || inRange c 0x200C 0x200D ||
    inRange c 0x2070 0x218F || inRange c 0x2C00 0x2FEF || inRange c 0x3001 0xD7FF ||
    inRange c 0xF900 0xFDCF || inRange c 0xFDF0 0xFFFD || inRange c 0x10000 0xEFFFF

/-- `isPNCharsU`. -/
def isPNCharsU (c : Char) : Bool :=
  c == '_' || isPNCharsBase c

/-- `isPNChar`. -/
def isPNChar (c : Char) : Bool :=
  isPNCharsU c || c == '-' || isDigit c || c == '·' || inRange c 0x0300 0x036F ||
    inRange c 0x203F 0x2040

/-- `isAbsoluteIRI`: the text up to the first colon is a scheme. -/
def isAbsoluteIRI (cs : List Char) : Bool :=
  cs.contains ':' &&
    match cs.takeWhile (· != ':') with
    | [] => false
    | c :: rest =>
      isLetter c && rest.all fun c => isLetter c || isDigit c || ['+', '-', '.'].contains c

/-! ## Writing -/

/-- What `Term` refuses: `ErrInvalidIRI`, with the character and its offset in bytes, and
    `ErrRelativeIRI`. A datatype is reported with the literal. -/
inductive WriteError
  | invalidIRI (iri : String) (c : Char) (offset : Nat)
  | relativeIRI (iri : String)
  | datatype (lexical : String) (err : WriteError)
deriving DecidableEq

/-- A digit of an escape. -/
def hexDigit (d : Nat) : Char :=
  if d < 10 then Char.ofNat ('0'.toNat + d) else Char.ofNat ('A'.toNat + (d - 10))

/-- `padHex4` and `padHex8`. -/
def padHex (width n : Nat) : List Char :=
  let digits := (Nat.digits 16 n).reverse.map hexDigit
  List.replicate (width - digits.length) '0' ++ digits

/-- The escape of a character in a literal. -/
def escapeStringChar (c : Char) : List Char :=
  if c = '\x5c' then ['\x5c', '\x5c']
  else if c = '\x22' then ['\x5c', '\x22']
  else if c = '\n' then ['\x5c', 'n']
  else if c = '\r' then ['\x5c', 'r']
  else if c = '\t' then ['\x5c', 't']
  else if c.toNat < 0x20 then '\x5c' :: 'u' :: padHex 4 c.toNat
  else if 0xFFFF < c.toNat then '\x5c' :: 'U' :: padHex 8 c.toNat
  else [c]

/-- `EscapeString`. -/
def escapeString (cs : List Char) : List Char :=
  let needsEscape := cs.any fun c =>
    ['\x5c', '\x22', '\n', '\r', '\t'].contains c || decide (c.toNat < 0x20) ||
      decide (0xFFFF < c.toNat)
  if needsEscape then cs.flatMap escapeStringChar else cs

/-- The escape of a character in an IRI. -/
def escapeIRIChar (c : Char) : List Char :=
  if c.toNat < 0x20 ∨ c = '<' ∨ c = '>' then '\x5c' :: 'u' :: padHex 4 c.toNat
  else if 0xFFFF < c.toNat then '\x5c' :: 'U' :: padHex 8 c.toNat
  else [c]

/-- `EscapeIRI`. -/
def escapeIRI (cs : List Char) : List Char :=
  let needsEscape := cs.any fun c =>
    decide (c.toNat < 0x20) || decide (0xFFFF < c.toNat) || c == '<' || c == '>'
  if needsEscape then cs.flatMap escapeIRIChar else cs

/-- The first character that no IRI may contain, with its offset. -/
def firstInvalid : Nat → List Char → Option (Char × Nat)
  | _, [] => none
  | offset, c :: cs => if iriChar c then firstInvalid (offset + c.utf8Size) cs else some (c, offset)

/-- `IRI`. -/
def serializeIRI (iri : String) : Except WriteError (List Char) :=
  match firstInvalid 0 iri.toList with
  | some (c, offset) => .error (.invalidIRI iri c offset)
  | none =>
    if isAbsoluteIRI iri.toList then .ok ('<' :: escapeIRI iri.toList ++ ['>'])
    else .error (.relativeIRI iri)

/-- `Literal`. The zero `URIRef`, which it also leaves out, is no IRI of the model: the IRI
    of the empty text has a key. -/
def serializeLiteral (l : LiteralOf anyChar) : Except WriteError (List Char) :=
  let quoted := '\x22' :: escapeString l.lexical.toList ++ ['\x22']
  match l.kind with
  | .lang tag => .ok (quoted ++ '@' :: tag.value.toList)
  | .dirLang tag dir => .ok (quoted ++ '@' :: tag.value.toList ++ ['-', '-'] ++ dir.text)
  | .typed dt _ =>
    if dt.value = xsdString then .ok quoted
    else
      match serializeIRI dt.value with
      | .ok text => .ok (quoted ++ '^' :: '^' :: text)
      | .error e => .error (.datatype l.lexical e)

mutual

/-- `Term` of a subject, with `TripleTermStr`. A label is written as it is. -/
def serializeSubject : SubjectOf anyChar → Except WriteError (List Char)
  | .uri u => serializeIRI u.value
  | .bnode b => .ok ('_' :: ':' :: b.value.toList)
  | .triple s p o => do
      let s ← serializeSubject s
      let p ← serializeIRI p.value
      let o ← serializeTerm o
      return ['<', '<', '(', ' '] ++ s ++ ' ' :: p ++ ' ' :: o ++ [' ', ')', '>', '>']

/-- `Term`. -/
def serializeTerm : TermOf anyChar → Except WriteError (List Char)
  | .subject s => serializeSubject s
  | .literal l => serializeLiteral l

end

/-- A triple with the name of its graph, if it is in one. -/
abbrev Statement := TripleOf anyChar × Option (TermOf anyChar)

/-- `formatLine`. -/
def formatLine (t : TripleOf anyChar) (suffix : List Char) : Except WriteError (List Char) := do
  let s ← serializeSubject t.subject
  let p ← serializeIRI t.predicate.value
  let o ← serializeTerm t.object
  return s ++ ' ' :: p ++ ' ' :: o ++ suffix ++ [' ', '.']

/-- The graph name of `Write`: the default graph has none. -/
def graphSuffix (graph : Option (TermOf anyChar)) : Except WriteError (List Char) :=
  match graphName graph with
  | none => .ok []
  | some g => (serializeTerm g).map fun text => ' ' :: text

/-- `Writer.Write`, to a writer that does not fail: the line with its newline. -/
def writeQuad (q : Statement) : Except WriteError (List Char) := do
  let suffix ← graphSuffix q.2
  let line ← formatLine q.1 suffix
  return line ++ ['\n']

/-- Statements written one after the other, up to the first error: the loop of
    `WriteGraph`. -/
def writeQuads : List Statement → Except WriteError (List Char)
  | [] => .ok []
  | q :: qs => do
      let text ← writeQuad q
      let rest ← writeQuads qs
      return text ++ rest

/-! ## Reading -/

/-- What the parser refuses. The last constructors say where. -/
inductive ReadError
  | unexpectedEnd
  | expectedSubject
  | expectedObject
  | expectedGraph
  | expectedDot
  | expectedIRI
  | unterminatedIRI
  | unterminatedIRIEscape
  | invalidIRI
  | relativeIRI
  | forbiddenCharacters (iri : List Char)
  | truncatedEscape
  | invalidEscape
  | surrogateEscape
  | unknownEscape (c : Char)
  | unterminatedEscape
  | unterminatedLiteral
  | emptyLabel
  | labelStart (c : Char)
  | tagStart
  | direction (dir : List Char)
  | languageTag (tag : List Char)
  | requiresTag (datatype : String)
  | expectedOpening
  | expectedClosing
  | expectedEnd
  | nesting
  | lineTooLong (limit : Nat)
  | subject (err : ReadError)
  | predicate (err : ReadError)
  | object (err : ReadError)
  | graph (err : ReadError)
  | datatype (err : ReadError)
  | tripleSubject (err : ReadError)
  | triplePredicate (err : ReadError)
  | tripleObject (err : ReadError)
deriving DecidableEq

/-- `SkipSpaces`. -/
def skipSpaces (cs : List Char) : List Char :=
  cs.dropWhile fun c => c == ' ' || c == '\t'

/-- `Expect`, with the error of the caller. -/
def expectChar (c : Char) (err : ReadError) : List Char → Except ReadError (List Char)
  | d :: cs => if d = c then .ok cs else .error err
  | [] => .error err

/-! ### Escapes -/

/-- The value of a digit of an escape. -/
def hexValue (c : Char) : Option Nat :=
  if '0' ≤ c ∧ c ≤ '9' then some (c.toNat - '0'.toNat)
  else if 'a' ≤ c ∧ c ≤ 'f' then some (c.toNat - 'a'.toNat + 10)
  else if 'A' ≤ c ∧ c ≤ 'F' then some (c.toNat - 'A'.toNat + 10)
  else none

/-- `strconv.ParseUint` in base 16, on texts that fit into 32 bits. -/
def parseHex (cs : List Char) : Option Nat :=
  cs.foldlM (fun n c => (hexValue c).map fun d => 16 * n + d) 0

/-- `WriteRune`: what is no code point becomes the replacement character. -/
def runeOf (n : Nat) : Char :=
  if n.isValidChar then Char.ofNat n else '�'

/-- The digits of an escape. -/
def readHex (width : Nat) (cs : List Char) : Except ReadError (Char × List Char) :=
  if cs.length < width then .error .truncatedEscape
  else
    match parseHex (cs.take width) with
    | none => .error .invalidEscape
    | some n =>
      if 0xD800 ≤ n ∧ n ≤ 0xDFFF then .error .surrogateEscape
      else .ok (runeOf n, cs.drop width)

/-- An escape of `ReadLiteral`, behind its backslash. -/
def readEscape : List Char → Except ReadError (Char × List Char)
  | [] => .error .unterminatedEscape
  | c :: cs =>
    if c = 'n' then .ok ('\n', cs)
    else if c = 'r' then .ok ('\r', cs)
    else if c = 't' then .ok ('\t', cs)
    else if c = 'b' then .ok ('\x08', cs)
    else if c = 'f' then .ok ('\x0c', cs)
    else if c = '\x5c' then .ok ('\x5c', cs)
    else if c = '\x22' then .ok ('\x22', cs)
    else if c = 'u' then readHex 4 cs
    else if c = 'U' then readHex 8 cs
    else .error (.unknownEscape c)

/-- An escape of `UnescapeIRI`, behind its backslash. -/
def readIRIEscape : List Char → Except ReadError (Char × List Char)
  | [] => .error .unterminatedIRIEscape
  | c :: cs =>
    if c = 'u' then readHex 4 cs
    else if c = 'U' then readHex 8 cs
    else .error (.unknownEscape c)

theorem readHex_length {width : Nat} {cs rest : List Char} {c : Char}
    (h : readHex width cs = .ok (c, rest)) : rest.length ≤ cs.length := by
  unfold readHex at h
  split at h
  · cases h
  · split at h
    · cases h
    · split at h
      · cases h
      · rw [Except.ok.injEq, Prod.mk.injEq] at h
        rw [← h.2, List.length_drop]
        exact Nat.sub_le _ _

theorem readEscape_length {cs rest : List Char} {c : Char} (h : readEscape cs = .ok (c, rest)) :
    rest.length < cs.length := by
  cases cs with
  | nil => exact absurd h (by simp [readEscape])
  | cons d cs =>
    have hle : rest.length ≤ cs.length := by
      simp only [readEscape] at h
      split_ifs at h
      all_goals first
        | exact readHex_length h
        | (rw [Except.ok.injEq, Prod.mk.injEq] at h; rw [← h.2])
    rw [List.length_cons]
    exact Nat.lt_succ_of_le hle

theorem readIRIEscape_length {cs rest : List Char} {c : Char}
    (h : readIRIEscape cs = .ok (c, rest)) : rest.length < cs.length := by
  cases cs with
  | nil => exact absurd h (by simp [readIRIEscape])
  | cons d cs =>
    simp only [readIRIEscape] at h
    split_ifs at h
    · exact Nat.lt_succ_of_le (readHex_length h)
    · exact Nat.lt_succ_of_le (readHex_length h)

/-! ### IRIs -/

/-- The loop of `ReadIRI`: the text up to the closing bracket. -/
def scanIRI : List Char → Except ReadError (List Char × List Char)
  | [] => .error .unterminatedIRI
  | c :: cs =>
    if c = '>' then .ok ([], cs)
    else if c = '\x5c' then
      match cs with
      | [] => .error .unterminatedIRIEscape
      | d :: cs => (scanIRI cs).map fun r => (c :: d :: r.1, r.2)
    else if c.toNat ≤ 0x20 then .error .invalidIRI
    else (scanIRI cs).map fun r => (c :: r.1, r.2)

/-- The loop of `UnescapeIRI`. A backslash at the end is left alone. -/
def unescapeLoop (cs : List Char) : Except ReadError (List Char) :=
  match cs with
  | [] => .ok []
  | c :: cs =>
    if c = '\x5c' ∧ cs ≠ [] then
      match _h : readIRIEscape cs with
      | .error e => .error e
      | .ok (d, rest) => (unescapeLoop rest).map fun r => d :: r
    else (unescapeLoop cs).map fun r => c :: r
termination_by cs.length
decreasing_by
  · exact Nat.lt_succ_of_lt (readIRIEscape_length _h)
  · exact Nat.lt_succ_self _

/-- `UnescapeIRI`. -/
def unescapeIRI (cs : List Char) : Except ReadError (List Char) :=
  if cs.contains '\x5c' then unescapeLoop cs else .ok cs

/-- `ReadIRI`. -/
def readIRI (cs : List Char) : Except ReadError (List Char × List Char) := do
  let cs ← expectChar '<' .expectedIRI cs
  let (iri, rest) ← scanIRI cs
  let iri ← unescapeIRI iri
  return (iri, rest)

/-- `NewURIRef`, for an IRI that has to be absolute. -/
def absoluteURI (iri : List Char) : Except ReadError (URIRefOf anyChar) :=
  if isAbsoluteIRI iri then
    if isValidIRI (String.ofList iri) then
      .ok ⟨String.ofList iri, all_anyChar_ofList iri⟩
    else .error (.forbiddenCharacters iri)
  else .error .relativeIRI

/-- An IRI of the line, at a place that its errors name. -/
def readURI (place : ReadError → ReadError) (cs : List Char) :
    Except ReadError (URIRefOf anyChar × List Char) := do
  let (iri, rest) ← (readIRI cs).mapError place
  let u ← (absoluteURI iri).mapError place
  return (u, rest)

/-- `ReadPredicate`. -/
def readPredicate (cs : List Char) : Except ReadError (URIRefOf anyChar × List Char) :=
  readURI .predicate (skipSpaces cs)

/-! ### Blank nodes -/

/-- `ReadBNode`, behind the `_:`. Dots at the end are not part of the label. -/
def readBNode (scope : String → BNodeOf anyChar) :
    List Char → Except ReadError (BNodeOf anyChar × List Char)
  | [] => .error .emptyLabel
  | c :: cs =>
    if isPNCharsU c || isDigit c then
      let run := c :: cs.takeWhile fun c => isPNChar c || c == '.'
      let label := run.rdropWhile (· == '.')
      if label = [] then .error .emptyLabel
      else .ok (scope (String.ofList label), (c :: cs).drop label.length)
    else .error (.labelStart c)

/-- `ReadSubject`. -/
def readSubject (scope : String → BNodeOf anyChar) (cs : List Char) :
    Except ReadError (SubjectOf anyChar × List Char) :=
  match skipSpaces cs with
  | [] => .error .unexpectedEnd
  | '<' :: cs => (readURI .subject ('<' :: cs)).map fun r => (.uri r.1, r.2)
  | '_' :: ':' :: cs => (readBNode scope cs).map fun r => (.bnode r.1, r.2)
  | _ => .error .expectedSubject

/-- `ReadGraphLabel`. -/
def readGraphLabel (scope : String → BNodeOf anyChar) (cs : List Char) :
    Except ReadError (Option (TermOf anyChar) × List Char) :=
  match skipSpaces cs with
  | [] => .ok (none, [])
  | '.' :: cs => .ok (none, '.' :: cs)
  | '<' :: cs => (readURI .graph ('<' :: cs)).map fun r => (some r.1.toTerm, r.2)
  | '_' :: ':' :: cs => (readBNode scope cs).map fun r => (some (.subject (.bnode r.1)), r.2)
  | _ => .error .expectedGraph

/-! ### Literals -/

/-- The loop of `ReadLiteral`: the lexical form, up to the closing quote. -/
def readQuoted (cs : List Char) : Except ReadError (List Char × List Char) :=
  match cs with
  | [] => .error .unterminatedLiteral
  | c :: cs =>
    if c = '\x5c' then
      match _h : readEscape cs with
      | .error e => .error e
      | .ok (d, rest) => (readQuoted rest).map fun r => (d :: r.1, r.2)
    else if c = '\x22' then .ok ([], cs)
    else (readQuoted cs).map fun r => (c :: r.1, r.2)
termination_by cs.length
decreasing_by
  · exact Nat.lt_succ_of_lt (readEscape_length _h)
  · exact Nat.lt_succ_self _

/-- A subtag of `isValidLangTag`. -/
def isValidSubtag (first : Bool) (part : List Char) : Bool :=
  decide (0 < part.length) && decide (part.length ≤ 8) &&
    part.all fun c => isLetter c || (!first && isDigit c)

/-- `isValidLangTag`. -/
def isValidLangTag (tag : List Char) : Bool :=
  match tag.splitOn '-' with
  | [] => false
  | part :: parts => isValidSubtag true part && parts.all (isValidSubtag false)

/-- The datatype IRI of a literal without a tag. -/
def typedKind (datatype : URIRefOf anyChar) : LiteralKind anyChar :=
  .typed datatype fun h => Bool.noConfusion h

/-- `xsd:string`. -/
def plainKind : LiteralKind anyChar :=
  typedKind ⟨xsdString, rfl⟩

/-- `NewLiteral` with `WithLang` and `WithDir`. -/
def taggedKind (tag : List Char) (dir : Option Direction) : LiteralKind anyChar :=
  match withLang tag, dir with
  | some tag, some dir => .dirLang tag dir
  | some tag, none => .lang tag
  | none, _ => plainKind

/-- A character of the tag, for the loop that looks for its end. -/
def endsTag (c : Char) : Bool :=
  c == ' ' || c == '\t' || c == '.'

/-- The language tag of `ReadLiteral`, behind the `@`. -/
def readTag (cs : List Char) : Except ReadError (LiteralKind anyChar × List Char) :=
  match cs with
  | [] => .error .tagStart
  | c :: _ =>
    if !isLetter c then .error .tagStart
    else
      let langDir := cs.takeWhile fun c => !endsTag c
      let rest := cs.dropWhile fun c => !endsTag c
      match splitHyphens langDir with
      | some (lang, dir) =>
        match withDir dir with
        | none => .error (.direction dir)
        | some d =>
          if isValidLangTag lang then .ok (taggedKind lang (some d), rest)
          else .error (.languageTag lang)
      | none =>
        if isValidLangTag langDir then .ok (taggedKind langDir none, rest)
        else .error (.languageTag langDir)

/-- What follows the quotes of a literal. -/
def readKind : List Char → Except ReadError (LiteralKind anyChar × List Char)
  | '@' :: cs => readTag cs
  | '^' :: '^' :: cs => (readURI .datatype cs).map fun r => (typedKind r.1, r.2)
  | cs => .ok (plainKind, cs)

/-- `RDFLangString`. -/
def rdfLangString : String := "http://www.w3.org/1999/02/22-rdf-syntax-ns#langString"

/-- `RDFDirLangString`. -/
def rdfDirLangString : String := "http://www.w3.org/1999/02/22-rdf-syntax-ns#dirLangString"

/-- The datatype is one that needs a language tag. -/
def LiteralKind.lacksTag : LiteralKind anyChar → Bool
  | .typed dt _ => dt.value == rdfLangString || dt.value == rdfDirLangString
  | _ => false

/-- The text of a datatype, for the error. -/
def LiteralKind.datatypeText : LiteralKind anyChar → String
  | .typed dt _ => dt.value
  | .lang _ => rdfLangString
  | .dirLang _ _ => rdfDirLangString

/-- `ReadLiteral`, behind the opening quote. -/
def readLiteral (cs : List Char) : Except ReadError (LiteralOf anyChar × List Char) := do
  let (lexical, rest) ← readQuoted cs
  let (kind, rest) ← readKind rest
  if kind.lacksTag then .error (.requiresTag kind.datatypeText)
  else return (⟨String.ofList lexical, kind⟩, rest)

/-! ### Objects and lines -/

/-- `ReadObject`, with `ReadTripleTerm`. The fuel bounds the nesting of triple terms, each
    of which has an opening of three characters. -/
def readObject (scope : String → BNodeOf anyChar) :
    Nat → List Char → Except ReadError (TermOf anyChar × List Char)
  | 0, _ => .error .nesting
  | fuel + 1, cs =>
    match skipSpaces cs with
    | [] => .error .unexpectedEnd
    | '<' :: '<' :: cs => do
        let cs ← expectChar '(' .expectedOpening (skipSpaces cs)
        let (s, cs) ← (readSubject scope cs).mapError .tripleSubject
        let (p, cs) ← (readPredicate cs).mapError .triplePredicate
        let (o, cs) ← (readObject scope fuel cs).mapError .tripleObject
        let cs ← expectChar ')' .expectedClosing (skipSpaces cs)
        match skipSpaces cs with
        | '>' :: '>' :: cs => return (.subject (.triple s p o), cs)
        | _ => .error .expectedEnd
    | '<' :: cs => (readURI .object ('<' :: cs)).map fun r => (r.1.toTerm, r.2)
    | '_' :: ':' :: cs => (readBNode scope cs).map fun r => (.subject (.bnode r.1), r.2)
    | '\x22' :: cs => (readLiteral cs).map fun r => (.literal r.1, r.2)
    | _ => .error .expectedObject

/-- `parseNQLine`. What follows the dot is not looked at. -/
def parseNQLine (scope : String → BNodeOf anyChar) (line : List Char) :
    Except ReadError Statement := do
  let (s, cs) ← readSubject scope line
  let (p, cs) ← readPredicate (skipSpaces cs)
  let (o, cs) ← readObject scope (line.length + 1) (skipSpaces cs)
  let (graph, cs) ← readGraphLabel scope (skipSpaces cs)
  let _ ← expectChar '.' .expectedDot (skipSpaces cs)
  return (⟨s, p, o⟩, graph)

/-- `WithMaxLineLength` and `WithUnboundedLines`. -/
structure LineOptions where
  maxLineLen : Nat
  unbounded : Bool

/-- The limit `ErrLineTooLong` names. -/
def LineOptions.limit (opts : LineOptions) : Nat :=
  if 0 < opts.maxLineLen then opts.maxLineLen else 65536

/-- `NewLineReader` hands the line back. The scanner needs room for one byte more than the
    line has, and starts with a buffer of 64 KiB however small the limit is. -/
def LineOptions.fits (opts : LineOptions) (line : List Char) : Bool :=
  opts.unbounded || decide ((String.ofList line).utf8ByteSize < max 65536 opts.maxLineLen)

/-- The loop of `parseLines`. -/
def parseLines (scope : String → BNodeOf anyChar) (opts : LineOptions) :
    List (List Char) → Except ReadError (List Statement)
  | [] => .ok []
  | raw :: lines =>
    if opts.fits raw then
      match trimSpace raw with
      | [] => parseLines scope opts lines
      | c :: line =>
        if c = '#' then parseLines scope opts lines
        else do
          let q ← parseNQLine scope (c :: line)
          let qs ← parseLines scope opts lines
          return q :: qs
    else .error (.lineTooLong opts.limit)

/-- `ParseStream`, without an error handler and into a handler that keeps what it gets. -/
def parseNQuads (scope : String → BNodeOf anyChar) (opts : LineOptions) (text : List Char) :
    Except ReadError (List Statement) :=
  parseLines scope opts (text.splitOn '\n')

end GoRdf
