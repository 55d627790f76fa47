import Mathlib.Algebra.Group.Int.Defs
import Mathlib.Data.List.Basic

/-!
# RDF Terms and Their Keys

The terms of package `term`: IRIs, blank nodes, literals and triple terms,
their N3 form and the key every store files them under.

A term carries the facts its constructor checks. An IRI or a blank node label
only has characters of a class `ok`, a language tag matches `langTagRegex`
after lower-casing, and a base direction only comes with a language tag. The
class is a parameter because the package has two constructors for an IRI:
`NewURIRef` refuses what `isValidIRI` refuses, `NewURIRefUnsafe` refuses
nothing, which is the class `anyChar`. `URIRef`, `Term` and the other
unparametrised names are the terms of the checked constructors.

Texts are lists of characters. The Go code builds the same texts out of
strings, and nothing below depends on how a string is laid out.

## Main definitions

* `isValidIRI`: The check `NewURIRef` makes.
* `LiteralOf`, `SubjectOf`, `TermOf`: Terms over a character class.
* `LiteralOf.n3`, `TermOf.n3`: The N-Triples form, with the Turtle shorthands.
* `LiteralOf.literalKey`: `literalKey`, the key of a literal.
* `TermOf.termKey`: `TermKey`, the key of the store's indexes.
* `Triple`, `TriplePattern`: What a graph holds, and what it is asked for.
-/

namespace GoRdf

/-! ## Names -/

/-- The characters `isValidIRI` lets through: everything but the controls, the
    space and the nine delimiters of `IRIREF`. -/
def iriChar (c : Char) : Bool :=
  !(decide (c.toNat ≤ 0x20)) &&
    !(['<', '>', '\x22', '\x7b', '\x7d', '|', '\x5c', '^', '\x60'].contains c)

/-- The characters `NewURIRefUnsafe` and `NewBNode` let through. -/
def anyChar (_ : Char) : Bool :=
  true

theorem all_anyChar (value : String) : value.toList.all anyChar = true :=
  List.all_eq_true.mpr fun _ _ => rfl

theorem all_anyChar_ofList (cs : List Char) : (String.ofList cs).toList.all anyChar = true :=
  all_anyChar _

/-- `isValidIRI`: no forbidden character occurs. -/
def isValidIRI (s : String) : Bool :=
  s.toList.all iriChar

/-- An IRI reference whose characters all lie in the class `ok`. -/
structure URIRefOf (ok : Char → Bool) where
  value : String
  valid : value.toList.all ok = true
deriving DecidableEq

/-- A blank node whose label only has characters of the class `ok`. It is not
    empty: `NewBNode` makes up a label then. -/
structure BNodeOf (ok : Char → Bool) where
  value : String
  valid : value.toList.all ok = true
  labelled : value ≠ ""
deriving DecidableEq

/-! ## Language tags -/

/-- A lower-case letter, the only kind `WithLang` leaves in a primary subtag. -/
def isLowerLetter (c : Char) : Bool :=
  decide ('a' ≤ c) && decide (c ≤ 'z')

/-- A decimal digit. -/
def isDigit (c : Char) : Bool :=
  decide ('0' ≤ c) && decide (c ≤ '9')

/-- The rest of a tag, `n` characters into a subtag whose characters satisfy
    `p`. It is `langTagRegex` run as an automaton: a subtag has one to eight
    characters, and those after the first also admit digits. -/
def subtags : (Char → Bool) → Nat → List Char → Bool
  | _, n, [] => decide (0 < n)
  | p, n, c :: cs =>
    if c = '-' then
      decide (0 < n) && subtags (fun d => isLowerLetter d || isDigit d) 0 cs
    else
      p c && decide (n < 8) && subtags p (n + 1) cs

/-- A language tag as `WithLang` stores it: well formed and in lower case. -/
structure LangTag where
  value : String
  valid : subtags isLowerLetter 0 value.toList = true
deriving DecidableEq

/-- The base directions `WithDir` accepts. -/
inductive Direction
  | ltr
  | rtl
deriving DecidableEq

/-- How a direction is written after a language tag. -/
def Direction.text : Direction → List Char
  | .ltr => ['l', 't', 'r']
  | .rtl => ['r', 't', 'l']

/-! ## Literals -/

/-- What stands beside the lexical form: a datatype, or a language tag with or
    without a base direction. The datatype of the last two is fixed by
    `NewLiteral`, and a direction without a tag is dropped there, so neither
    combination can be built here.

    Over a class that refuses NUL, the datatype is not the empty IRI. `literalKey`
    leaves that one out, so that such a literal would share its key with the
    `xsd:string` of the same text, and keys would not identify terms. -/
inductive LiteralKind (ok : Char → Bool)
  | typed (datatype : URIRefOf ok) (named : ok '\x00' = false → datatype.value ≠ "")
  | lang (tag : LangTag)
  | dirLang (tag : LangTag) (dir : Direction)
deriving DecidableEq

/-- A literal: its lexical form, which is any text, and its kind. -/
structure LiteralOf (ok : Char → Bool) where
  lexical : String
  kind : LiteralKind ok
deriving DecidableEq

/-- `XSDString`. -/
def xsdString : String := "http://www.w3.org/2001/XMLSchema#string"

/-- `XSDInteger`. -/
def xsdInteger : String := "http://www.w3.org/2001/XMLSchema#integer"

/-- `XSDDouble`. -/
def xsdDouble : String := "http://www.w3.org/2001/XMLSchema#double"

/-- `XSDDecimal`. -/
def xsdDecimal : String := "http://www.w3.org/2001/XMLSchema#decimal"

/-- `XSDBoolean`. -/
def xsdBoolean : String := "http://www.w3.org/2001/XMLSchema#boolean"

/-! ## The numeric shorthands -/

/-- `skipSign`: the text after an optional sign. -/
def skipSign : List Char → List Char
  | '+' :: cs => cs
  | '-' :: cs => cs
  | cs => cs

/-- `skipDigits`: the text after a run of digits. -/
def skipDigits (cs : List Char) : List Char :=
  cs.dropWhile isDigit

/-- At least one digit, and nothing else. -/
def allDigits (cs : List Char) : Bool :=
  !cs.isEmpty && cs.all isDigit

/-- The number a run of digits denotes. -/
def digitsValue (cs : List Char) : Nat :=
  cs.foldl (fun n c => 10 * n + (c.toNat - '0'.toNat)) 0

/-- `strconv.ParseInt(s, 10, 64)`: a signed run of digits in the range of an
    `int64`. -/
def parseInt64 (cs : List Char) : Option Int :=
  if allDigits (skipSign cs) then
    let n : Int := digitsValue (skipSign cs)
    let v := if cs.head? = some '-' then -n else n
    if -(2 ^ 63) ≤ v ∧ v < 2 ^ 63 then some v else none
  else none

/-- `isTurtleDecimal`: `[+-]? [0-9]* '.' [0-9]+`. -/
def isTurtleDecimal (cs : List Char) : Bool :=
  match skipDigits (skipSign cs) with
  | '.' :: frac => allDigits frac
  | _ => false

/-- `isExponent`: `[eE] [+-]? [0-9]+`. -/
def isExponent : List Char → Bool
  | c :: cs => (c == 'e' || c == 'E') && allDigits (skipSign cs)
  | [] => false

/-- `isTurtleDouble`. A point needs digits on one of its sides, and the exponent
    is not optional. -/
def isTurtleDouble (cs : List Char) : Bool :=
  let int := skipSign cs
  let rest := skipDigits int
  match rest with
  | '.' :: frac =>
    if rest = int ∧ skipDigits frac = frac then false else isExponent (skipDigits frac)
  | _ => if rest = int then false else isExponent rest

/-! ## The N3 form -/

/-- The escape of one character inside `"…"`, as `literalEscaper` replaces it. -/
def escapeChar (c : Char) : List Char :=
  if c = '\x5c' then ['\x5c', '\x5c']
  else if c = '\x22' then ['\x5c', '\x22']
  else if c = '\n' then ['\x5c', 'n']
  else if c = '\r' then ['\x5c', 'r']
  else if c = '\t' then ['\x5c', 't']
  else [c]

/-- `escapeLiteral`. -/
def escapeLiteral (cs : List Char) : List Char :=
  cs.flatMap escapeChar

/-- The escape of one character inside the long form, as `tripleQuotedEscaper`
    replaces it: a quote is left alone. -/
def escapeLongChar (c : Char) : List Char :=
  if c = '\x22' then [c] else escapeChar c

/-- The second pass of `escapeTripleQuotedLiteral`, `q` raw quotes into a run.
    The third quote of a run is escaped, and so is every quote that only quotes
    follow, since those touch the closing delimiter. -/
def escapeQuoteRuns : Nat → List Char → List Char
  | _, [] => []
  | q, c :: cs =>
    if c = '\x22' then
      if q + 1 = 3 ∨ cs.all (· == '\x22') = true then
        '\x5c' :: '\x22' :: escapeQuoteRuns 0 cs
      else
        c :: escapeQuoteRuns (q + 1) cs
    else
      c :: escapeQuoteRuns 0 cs

/-- `escapeTripleQuotedLiteral`. -/
def escapeTripleQuotedLiteral (cs : List Char) : List Char :=
  escapeQuoteRuns 0 (cs.flatMap escapeLongChar)

/-- The delimiter of the long form. -/
def tripleQuote : List Char := ['\x22', '\x22', '\x22']

/-- The quoted lexical form: the long form as soon as there is a newline. -/
def quoted (cs : List Char) : List Char :=
  if cs.contains '\n' then
    tripleQuote ++ escapeTripleQuotedLiteral cs ++ tripleQuote
  else
    '\x22' :: escapeLiteral cs ++ ['\x22']

section

variable {ok : Char → Bool}

/-- The N3 form of an IRI. -/
def URIRefOf.n3 (u : URIRefOf ok) : List Char :=
  '<' :: u.value.toList ++ ['>']

/-- What follows the quoted form. `xsd:string` is the default and is not
    written. -/
def LiteralKind.n3 : LiteralKind ok → List Char
  | .lang tag => '@' :: tag.value.toList
  | .dirLang tag dir => '@' :: tag.value.toList ++ ['-', '-'] ++ dir.text
  | .typed dt _ => if dt.value = xsdString then [] else '^' :: '^' :: dt.n3

/-- The datatypes whose lexical forms N3 writes bare, and when. -/
def isShorthand (datatype : String) (cs : List Char) : Bool :=
  if datatype = xsdInteger then (parseInt64 cs).isSome
  else if datatype = xsdDouble then isTurtleDouble cs
  else if datatype = xsdDecimal then isTurtleDecimal cs
  else if datatype = xsdBoolean then
    cs == ['t', 'r', 'u', 'e'] || cs == ['f', 'a', 'l', 's', 'e']
  else false

/-- Whether N3 writes the literal bare. -/
def LiteralOf.bare (l : LiteralOf ok) : Bool :=
  match l.kind with
  | .typed dt _ => isShorthand dt.value l.lexical.toList
  | _ => false

/-- `Literal.N3`. -/
def LiteralOf.n3 (l : LiteralOf ok) : List Char :=
  if l.bare then l.lexical.toList else quoted l.lexical.toList ++ l.kind.n3

/-- The suffix `literalKey` writes. A datatype is left out when it is `xsd:string` or
    has no text. -/
def LiteralKind.keySuffix : LiteralKind ok → List Char
  | .lang tag => '@' :: tag.value.toList
  | .dirLang tag dir => '@' :: tag.value.toList ++ ['-', '-'] ++ dir.text
  | .typed dt _ =>
    let text := if dt.value = xsdString then "" else dt.value
    if text ≠ "" then ['^', '^', '<'] ++ text.toList ++ ['>'] else []

/-- The datatypes that have a shorthand. -/
def LiteralKind.mayBeShort : LiteralKind ok → Bool
  | .typed dt _ => [xsdInteger, xsdDouble, xsdDecimal, xsdBoolean].contains dt.value
  | _ => false

/-- `literalKey`: a second encoder, for what is on one line and has no shorthand. -/
def LiteralOf.literalKey (l : LiteralOf ok) : List Char :=
  let cs := l.lexical.toList
  if cs.contains '\n' || l.kind.mayBeShort then 'L' :: ':' :: l.n3
  else
    let escape := cs.any ['\x5c', '\x22', '\r', '\t'].contains
    ['L', ':', '\x22'] ++ (if escape then escapeLiteral cs else cs) ++
      '\x22' :: l.kind.keySuffix

end

/-! ## Terms -/

mutual

/-- `Subject`: what may stand in subject position. A triple term implements the
    interface too. -/
inductive SubjectOf (ok : Char → Bool)
  | uri (u : URIRefOf ok)
  | bnode (b : BNodeOf ok)
  | triple (subject : SubjectOf ok) (predicate : URIRefOf ok) (object : TermOf ok)

/-- `Term`: a subject or a literal. -/
inductive TermOf (ok : Char → Bool)
  | subject (s : SubjectOf ok)
  | literal (l : LiteralOf ok)

end

deriving instance DecidableEq for SubjectOf, TermOf

instance {ok : Char → Bool} : LawfulBEq (SubjectOf ok) := inferInstance

instance {ok : Char → Bool} : LawfulBEq (TermOf ok) := inferInstance

section

variable {ok : Char → Bool}

mutual

/-- `N3` of a subject. -/
def SubjectOf.n3 : SubjectOf ok → List Char
  | .uri u => u.n3
  | .bnode b => '_' :: ':' :: b.value.toList
  | .triple s p o =>
    ['<', '<', '(', ' '] ++ s.n3 ++ ' ' :: p.n3 ++ ' ' :: o.n3 ++ [' ', ')', '>', '>']

/-- `N3` of a term. -/
def TermOf.n3 : TermOf ok → List Char
  | .subject s => s.n3
  | .literal l => l.n3

end

/-- `TermKey` of an IRI. -/
def URIRefOf.termKey (u : URIRefOf ok) : List Char :=
  'U' :: ':' :: u.value.toList

mutual

/-- `TermKey` of a subject. The parts of a triple term are separated by NUL. -/
def SubjectOf.termKey : SubjectOf ok → List Char
  | .uri u => u.termKey
  | .bnode b => 'B' :: ':' :: b.value.toList
  | .triple s p o =>
    'T' :: ':' :: s.termKey ++ '\x00' :: p.termKey ++ '\x00' :: o.termKey

/-- `TermKey` of a term. -/
def TermOf.termKey : TermOf ok → List Char
  | .subject s => s.termKey
  | .literal l => l.literalKey

end

/-- The subject is an IRI or a blank node. -/
def SubjectOf.isName : SubjectOf ok → Bool
  | .triple _ _ _ => false
  | _ => true

/-- The type assertion `t.(Subject)`: everything but a literal. -/
def TermOf.asSubject : TermOf ok → Option (SubjectOf ok)
  | .subject s => some s
  | .literal _ => none

/-- The type assertion `t.(URIRef)`. -/
def TermOf.asURIRef : TermOf ok → Option (URIRefOf ok)
  | .subject (.uri u) => some u
  | _ => none

/-- An IRI as a term. -/
def URIRefOf.toTerm (u : URIRefOf ok) : TermOf ok :=
  .subject (.uri u)

end

/-- An IRI that `NewURIRef` accepts. -/
abbrev URIRef := URIRefOf iriChar

/-- A blank node whose label has no delimiter in it. -/
abbrev BNode := BNodeOf iriChar

/-- A literal whose datatype is a valid IRI. -/
abbrev Literal := LiteralOf iriChar

/-- A subject all of whose names are valid. -/
abbrev Subject := SubjectOf iriChar

/-- A term all of whose names are valid. -/
abbrev Term := TermOf iriChar

/-! ## Triples -/

/-- `Triple`, over a character class. -/
structure TripleOf (ok : Char → Bool) where
  subject : SubjectOf ok
  predicate : URIRefOf ok
  object : TermOf ok
deriving DecidableEq

instance {ok : Char → Bool} : LawfulBEq (TripleOf ok) := inferInstance

/-- `TriplePattern`: an absent field is a wildcard. -/
structure TriplePatternOf (ok : Char → Bool) where
  subject : Option (SubjectOf ok)
  predicate : Option (URIRefOf ok)
  object : Option (TermOf ok)
deriving DecidableEq

/-- A triple all of whose names are valid. -/
abbrev Triple := TripleOf iriChar

/-- A pattern all of whose names are valid. -/
abbrev TriplePattern := TriplePatternOf iriChar

/-- `TriplePattern.Matches`. -/
def TriplePatternOf.matches {ok : Char → Bool} (pat : TriplePatternOf ok) (t : TripleOf ok) :
    Bool :=
  pat.subject.all (· == t.subject) && pat.predicate.all (· == t.predicate) &&
    pat.object.all (· == t.object)

end GoRdf
