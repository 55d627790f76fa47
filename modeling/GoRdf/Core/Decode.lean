import GoRdf.Core.Term

/-!
# Terms Out of Keys

`TermFromKey` and the readers under it. A key starts with the kind of the term.
A literal is read off its N3 form. A triple term is split at the first two NULs,
so that whatever follows belongs to its object.

The reader makes IRIs with `NewURIRefUnsafe`, which is reading over the class
`anyChar`. Over a class that refuses some texts, those are an error of their own
here; a store only reads back what it has written, where that does not happen.

## Main definitions

* `DecodeError`: The ways a key can be no term's.
* `literalFromN3`: `literalFromN3`.
* `termFromKey`: `TermFromKey`, with `tripleTermFromKey`.
* `tripleTermFromN3`, `parseOneTermN3`: The N3 body a hand-built key may have.
-/

namespace GoRdf

/-- The errors of `TermFromKey`, with the text they quote. -/
inductive DecodeError
  | keyTooShort (key : List Char)
  | unknownPrefix (key : List Char)
  | invalidLiteral (n3 : List Char)
  | unterminatedLiteral (n3 : List Char)
  | unterminatedTripleQuoted (n3 : List Char)
  | invalidDatatype (suffix : List Char)
  | invalidTripleTermKey (key : List Char)
  | invalidTripleTerm (n3 : List Char)
  | emptyInput
  | unterminatedURI (text : List Char)
  | subject (err : DecodeError)
  | subjectKind (key : List Char)
  | predicate (err : DecodeError)
  | predicateKind (key : List Char)
  | object (err : DecodeError)
  /-- `NewBNode` makes up a label for the empty one, which is no function of the key. -/
  | emptyLabel
  /-- The text is not of the class read over. -/
  | outsideClass (text : List Char)
deriving DecidableEq

/-! ## Texts -/

/-- `isTurtleInteger`: `[+-]? [0-9]+`. -/
def isTurtleInteger (cs : List Char) : Bool :=
  allDigits (skipSign cs)

/-- `findClosingQuote`: the text before the first quote that is not escaped, and the
    text behind it. -/
def closeQuote : List Char → Option (List Char × List Char)
  | [] => none
  | ['\x5c'] => none
  | '\x5c' :: c :: cs => (closeQuote cs).map fun r => ('\x5c' :: c :: r.1, r.2)
  | c :: cs =>
    if c = '\x22' then some ([], cs) else (closeQuote cs).map fun r => (c :: r.1, r.2)

/-- `findClosingTripleQuote`. -/
def closeTripleQuote : List Char → Option (List Char × List Char)
  | [] => none
  | ['\x5c'] => none
  | '\x5c' :: c :: cs => (closeTripleQuote cs).map fun r => ('\x5c' :: c :: r.1, r.2)
  | c :: cs =>
    if tripleQuote.isPrefixOf (c :: cs) then some ([], cs.drop 2)
    else (closeTripleQuote cs).map fun r => (c :: r.1, r.2)

/-- `unescapeLiteral`. A backslash before any other character stays. -/
def unescapeLiteral : List Char → List Char
  | [] => []
  | '\x5c' :: '\x22' :: cs => '\x22' :: unescapeLiteral cs
  | '\x5c' :: '\x5c' :: cs => '\x5c' :: unescapeLiteral cs
  | '\x5c' :: 'n' :: cs => '\n' :: unescapeLiteral cs
  | '\x5c' :: 'r' :: cs => '\r' :: unescapeLiteral cs
  | '\x5c' :: 't' :: cs => '\t' :: unescapeLiteral cs
  | c :: cs => c :: unescapeLiteral cs

/-- The text around the first `--`. -/
def splitHyphens : List Char → Option (List Char × List Char)
  | '-' :: '-' :: cs => some ([], cs)
  | c :: cs => (splitHyphens cs).map fun r => (c :: r.1, r.2)
  | [] => none

/-- The parts of `strings.SplitN(s, "\x00", 2)`, if there are two. -/
def splitNul (cs : List Char) : Option (List Char × List Char) :=
  match cs.dropWhile (· != '\x00') with
  | [] => none
  | _ :: rest => some (cs.takeWhile (· != '\x00'), rest)

/-! ## Literals -/

/-- `strings.ToLower` on the letters a language tag has. -/
def asciiLower (c : Char) : Char :=
  if 'A' ≤ c ∧ c ≤ 'Z' then Char.ofNat (c.toNat + 32) else c

/-- `WithLang`: the tag in lower case, if `ValidLanguageTag` accepts it. -/
def withLang (cs : List Char) : Option LangTag :=
  let lower := cs.map asciiLower
  if h : subtags isLowerLetter 0 (String.ofList lower).toList = true then
    some ⟨String.ofList lower, h⟩
  else none

/-- `WithDir`. -/
def withDir (cs : List Char) : Option Direction :=
  if cs = Direction.text .ltr then some .ltr
  else if cs = Direction.text .rtl then some .rtl
  else none

section

variable {ok : Char → Bool}

/-- `NewURIRefUnsafe`, over the class. -/
def URIRefOf.ofChars (cs : List Char) : Except DecodeError (URIRefOf ok) :=
  if h : (String.ofList cs).toList.all ok = true then .ok ⟨String.ofList cs, h⟩
  else .error (.outsideClass cs)

/-- `NewBNode` of a label, over the class. -/
def BNodeOf.ofChars (cs : List Char) : Except DecodeError (BNodeOf ok) :=
  if hl : String.ofList cs ≠ "" then
    if h : (String.ofList cs).toList.all ok = true then .ok ⟨String.ofList cs, h, hl⟩
    else .error (.outsideClass cs)
  else .error .emptyLabel

/-- `NewLiteral` with `WithDatatype`. -/
def LiteralOf.ofTyped (lexical datatype : List Char) : Except DecodeError (LiteralOf ok) :=
  if h : (String.ofList datatype).toList.all ok = true ∧
      (ok '\x00' = false → String.ofList datatype ≠ "") then
    .ok ⟨String.ofList lexical, .typed ⟨String.ofList datatype, h.1⟩ h.2⟩
  else .error (.outsideClass datatype)

/-- `NewLiteral` with `WithLang` and `WithDir`. A tag that is not valid is dropped, and
    a direction with it. -/
def LiteralOf.ofTagged (lexical tag dir : List Char) : Except DecodeError (LiteralOf ok) :=
  match withLang tag, withDir dir with
  | some tag, some dir => .ok ⟨String.ofList lexical, .dirLang tag dir⟩
  | some tag, none => .ok ⟨String.ofList lexical, .lang tag⟩
  | none, _ => LiteralOf.ofTyped lexical xsdString.toList

/-- What follows the quotes: `@lang`, `@lang--dir`, `^^<datatype>`. Anything else is
    passed over. -/
def literalSuffix (lexical suffix : List Char) : Except DecodeError (LiteralOf ok) :=
  match suffix with
  | '@' :: langDir =>
    match splitHyphens langDir with
    | some (tag, dir) => LiteralOf.ofTagged lexical tag dir
    | none => LiteralOf.ofTagged lexical langDir []
  | '^' :: '^' :: '<' :: datatype =>
    if datatype.getLast? = some '>' then LiteralOf.ofTyped lexical datatype.dropLast
    else .error (.invalidDatatype suffix)
  | '^' :: '^' :: _ => .error (.invalidDatatype suffix)
  | _ => LiteralOf.ofTyped lexical xsdString.toList

/-- `literalFromN3`. -/
def literalFromN3 (n3 : List Char) : Except DecodeError (LiteralOf ok) :=
  if isTurtleDouble n3 then LiteralOf.ofTyped n3 xsdDouble.toList
  else if isTurtleDecimal n3 then LiteralOf.ofTyped n3 xsdDecimal.toList
  else if isTurtleInteger n3 then LiteralOf.ofTyped n3 xsdInteger.toList
  else if n3 = ['t', 'r', 'u', 'e'] ∨ n3 = ['f', 'a', 'l', 's', 'e'] then
    LiteralOf.ofTyped n3 xsdBoolean.toList
  else if tripleQuote.isPrefixOf n3 then
    match closeTripleQuote (n3.drop 3) with
    | none => .error (.unterminatedTripleQuoted n3)
    | some (body, suffix) => literalSuffix (unescapeLiteral body) suffix
  else
    match n3 with
    | '\x22' :: cs =>
      match closeQuote cs with
      | none => .error (.unterminatedLiteral n3)
      | some (body, suffix) => literalSuffix (unescapeLiteral body) suffix
    | _ => .error (.invalidLiteral n3)

/-! ## The N3 body of a triple term -/

/-- `unicode.IsSpace`. -/
def isSpace (c : Char) : Bool :=
  ['\t', '\n', '\x0b', '\x0c', '\r', ' ', '\u0085', '\u00a0', '\u1680', '\u2028', '\u2029',
    '\u202f', '\u205f', '\u3000'].contains c || (decide ('\u2000' ≤ c) && decide (c ≤ '\u200a'))

/-- `strings.TrimSpace`. -/
def trimSpace (cs : List Char) : List Char :=
  ((cs.dropWhile isSpace).reverse.dropWhile isSpace).reverse

/-- The blanks `parseOneTermN3` looks for. -/
def isBlank (c : Char) : Bool :=
  [' ', '\t', '\n', '\r'].contains c

/-- `consumeLiteralN3`: the text behind a quoted literal. -/
def afterLiteral (cs : List Char) : List Char :=
  let closed :=
    if tripleQuote.isPrefixOf cs then closeTripleQuote (cs.drop 3) else closeQuote cs.tail
  match closed with
  | none => []
  | some (_, '@' :: rest) => rest.dropWhile fun c => !isBlank c
  | some (_, '^' :: '^' :: '<' :: rest) =>
    if rest.contains '>' then (rest.dropWhile (· != '>')).tail else '<' :: rest
  | some (_, '^' :: '^' :: rest) => rest
  | some (_, rest) => rest

/-- The text up to the `)>>` that closes a triple term `depth` levels deep, and the text
    behind. -/
def closeTripleTerm : Nat → List Char → List Char × List Char
  | depth, '<' :: '<' :: '(' :: cs =>
    let r := closeTripleTerm (depth + 1) cs
    ('<' :: '<' :: '(' :: r.1, r.2)
  | depth, ')' :: '>' :: '>' :: cs =>
    if depth ≤ 1 then ([')', '>', '>'], cs)
    else
      let r := closeTripleTerm (depth - 1) cs
      (')' :: '>' :: '>' :: r.1, r.2)
  | depth, c :: cs =>
    let r := closeTripleTerm depth cs
    (c :: r.1, r.2)
  | _, [] => ([], [])

/-- The check that a term may be the subject of a triple term. -/
def tripleSubject (text : List Char) (t : TermOf ok) : Except DecodeError (SubjectOf ok) :=
  t.asSubject.elim (.error (.subjectKind text)) .ok

/-- The check that a term may be the predicate of a triple term. -/
def triplePredicate (text : List Char) (t : TermOf ok) : Except DecodeError (URIRefOf ok) :=
  t.asURIRef.elim (.error (.predicateKind text)) .ok

/-- `tripleTermFromN3`, given the reader of its parts. -/
def readTripleTermN3 (parseOne : List Char → Except DecodeError (TermOf ok × List Char))
    (n3 : List Char) : Except DecodeError (TermOf ok) := do
  let s := trimSpace n3
  if !(['<', '<', '('].isPrefixOf s && [')', '>', '>'].isSuffixOf s) then
    .error (.invalidTripleTerm n3)
  else
    let inner := trimSpace ((s.drop 3).take (s.length - 6))
    let (subj, rest) ← (parseOne inner).mapError .subject
    let subj ← tripleSubject inner subj
    let (pred, rest) ← (parseOne (trimSpace rest)).mapError .predicate
    let pred ← triplePredicate inner pred
    let (obj, _) ← (parseOne (trimSpace rest)).mapError .object
    return .subject (.triple subj pred obj)

/-- `parseOneTermN3`. The fuel bounds the nesting of triple terms, each of which is six
    characters shorter than the one around it. -/
def parseOneTermN3 : Nat → List Char → Except DecodeError (TermOf ok × List Char)
  | _, [] => .error .emptyInput
  | 0, _ => .error .emptyInput
  | fuel + 1, s =>
    match s with
    | '<' :: cs =>
      if ['<', '<', '('].isPrefixOf s then
        let r := closeTripleTerm 1 (s.drop 3)
        (readTripleTermN3 (parseOneTermN3 fuel) (['<', '<', '('] ++ r.1)).map fun t => (t, r.2)
      else if cs.contains '>' then
        (URIRefOf.ofChars (cs.takeWhile (· != '>'))).map fun u =>
          (u.toTerm, (cs.dropWhile (· != '>')).tail)
      else .error (.unterminatedURI s)
    | '_' :: ':' :: cs =>
      (BNodeOf.ofChars (cs.takeWhile fun c => !isBlank c)).map fun b =>
        (.subject (.bnode b), cs.dropWhile fun c => !isBlank c)
    | '\x22' :: _ => (literalFromN3 s).map fun l => (.literal l, afterLiteral s)
    | _ =>
      (literalFromN3 (s.takeWhile fun c => !isBlank c)).map fun l =>
        (.literal l, s.dropWhile fun c => !isBlank c)

/-- `tripleTermFromN3`. -/
def tripleTermFromN3 (n3 : List Char) : Except DecodeError (TermOf ok) :=
  readTripleTermN3 (parseOneTermN3 n3.length) n3

/-! ## Keys -/

theorem splitNul_length {cs a b : List Char} (h : splitNul cs = some (a, b)) :
    a.length + b.length < cs.length := by
  unfold splitNul at h
  split at h
  · cases h
  · rename_i c rest hdrop
    have hcs := List.takeWhile_append_dropWhile (p := (· != '\x00')) (l := cs)
    rw [Option.some.injEq, Prod.mk.injEq] at h
    rw [← hcs, hdrop, List.length_append, List.length_cons, h.1, h.2]
    omega

/-- `NewTripleTerm` of three parts that were read from keys. -/
def newTripleTerm (sk pk : List Char) (s p o : Except DecodeError (TermOf ok)) :
    Except DecodeError (TermOf ok) := do
  let subj ← tripleSubject sk (← s.mapError .subject)
  let pred ← triplePredicate pk (← p.mapError .predicate)
  let obj ← o.mapError .object
  return .subject (.triple subj pred obj)

/-- `TermFromKey`, with `tripleTermFromKey`. -/
def termFromKey (key : List Char) : Except DecodeError (TermOf ok) :=
  match key with
  | 'U' :: ':' :: rest => (URIRefOf.ofChars rest).map URIRefOf.toTerm
  | 'B' :: ':' :: rest => (BNodeOf.ofChars rest).map fun b => .subject (.bnode b)
  | 'L' :: ':' :: rest => (literalFromN3 rest).map .literal
  | 'T' :: ':' :: rest =>
    if ['<', '<', '('].isPrefixOf rest then tripleTermFromN3 rest
    else
      match _hs : splitNul rest with
      | none => .error (.invalidTripleTermKey rest)
      | some (sk, more) =>
        match _hp : splitNul more with
        | none => .error (.invalidTripleTermKey rest)
        | some (pk, ok) =>
          newTripleTerm sk pk (termFromKey sk) (termFromKey pk) (termFromKey ok)
  | key =>
    if (String.ofList key).utf8ByteSize < 2 then .error (.keyTooShort key)
    else .error (.unknownPrefix key)
termination_by key.length
decreasing_by
  all_goals
    have h₁ := splitNul_length _hs
    have h₂ := splitNul_length _hp
    simp only [List.length_cons]
    omega

end

end GoRdf
