import Mathlib.Data.Char
import Mathlib.Data.List.Lex
import GoRdf.Core.Number

/-!
# Orders on Terms

The two comparisons a sort is given: `term.CompareTerm`, which the serializers sort
by, and `compareTermValues` of package `sparql`, which is behind `ORDER BY`, `MIN`
and `MAX`.

Both put terms of different types in a fixed order. Both compare some literals by
their values and all others by their N3 forms, `CompareTerm` only two of one
numeric datatype, `compareTermValues` any two numbers and any two dates.

`time.Parse` is a parameter: it takes a layout and a text, and gives an instant.

## Main definitions

* `compareLiterals`, `compareTerm`: `compareLiterals` and `CompareTerm`.
* `parseDateTime`, `compareShortNumbers`: What `compareTermValues` tries.
* `compareLiteralValues`, `compareTermValues`: `compareTermValues`.
-/

namespace GoRdf

open Lib

/-! ## `CompareTerm` -/

section

variable {ok : Char → Bool}

/-- `termTypeOrder`. -/
def TermOf.typeOrder : TermOf ok → Int
  | .subject (.bnode _) => 0
  | .subject (.uri _) => 1
  | .literal _ => 2
  | .subject (.triple _ _ _) => 3

/-- The datatypes whose literals are compared as an `int64`. -/
def integerOrdered : List String :=
  [xsdInteger, xsd "int", xsd "long"]

/-- The datatypes whose literals are compared as a `float64`. -/
def floatOrdered : List String :=
  [xsd "float", xsdDouble, xsdDecimal]

/-- `strings.Compare` of the N3 forms. -/
def compareN3 (a b : LiteralOf ok) : Int :=
  threeWay a.n3 b.n3

/-- `compareLiterals`. A value that is out of range is an error. -/
def compareLiterals (a b : LiteralOf ok) : Int :=
  if a.datatype = b.datatype then
    match a.datatype with
    | none => compareN3 a b
    | some d =>
      if d ∈ integerOrdered then
        match parseInt64 a.lexical.toList, parseInt64 b.lexical.toList with
        | some x, some y => threeWay x y
        | _, _ => compareN3 a b
      else if d ∈ floatOrdered then
        match floatValue a.lexical.toList, floatValue b.lexical.toList with
        | some x, some y => cmpFloat x y
        | _, _ => compareN3 a b
      else compareN3 a b
  else compareN3 a b

/-- `CompareTerm`. -/
def compareTerm (a b : TermOf ok) : Int :=
  if a.typeOrder ≠ b.typeOrder then if a.typeOrder < b.typeOrder then -1 else 1
  else
    match a, b with
    | .literal a, .literal b => compareLiterals a b
    | a, b => threeWay a.n3 b.n3

end

/-! ## `compareTermValues` -/

/-- `shortNumberLexical`. -/
def shortNumberLexical (l : Literal) : Bool :=
  if l.datatype = some xsdInteger then isIntegerLexical l.lexical.toList
  else if l.datatype = some xsdDecimal then isDecimalLexical l.lexical.toList
  else false

/-- `compareShortNumbers`. -/
def compareShortNumbers (a b : Literal) : Option Int :=
  if 15 < a.lexical.length ∨ 15 < b.lexical.length then none
  else if shortNumberLexical a && shortNumberLexical b then
    match floatValue a.lexical.toList, floatValue b.lexical.toList with
    | some x, some y => some (cmpFloat x y)
    | _, _ => none
  else none

/-- `time.Parse`: an instant, from a layout and a text. -/
abbrev TimeParser := String → String → Option Int

/-- `isDateDatatype`. -/
def isDateDatatype (datatype : String) : Bool :=
  decide (datatype ∈ [xsd "dateTime", xsd "date", xsd "time"])

/-- The layouts that `parseDateTime` tries in turn. -/
def timeLayouts (datatype : String) : List String :=
  if datatype = xsd "dateTime" then
    ["2006-01-02T15:04:05Z07:00", "2006-01-02T15:04:05",
     "2006-01-02T15:04:05.999999999Z07:00", "2006-01-02T15:04:05.999999999"]
  else if datatype = xsd "date" then ["2006-01-02Z07:00", "2006-01-02"]
  else if datatype = xsd "time" then
    ["15:04:05Z07:00", "15:04:05", "15:04:05.999999999Z07:00", "15:04:05.999999999"]
  else []

/-- `parseDateTime`. -/
def parseDateTime (time : TimeParser) (datatype text : String) : Option Int :=
  (timeLayouts datatype).findSome? fun layout => time layout text

/-- The instant of a literal whose datatype is that of a date. -/
def dateOf (time : TimeParser) (l : Literal) : Option Int :=
  l.datatype.bind fun d => if isDateDatatype d then parseDateTime time d l.lexical else none

/-- `compareTermValues` of two literals. -/
def compareLiteralValues (time : TimeParser) (a b : Literal) : Int :=
  match compareShortNumbers a b with
  | some c => c
  | none =>
    match numericOf a, numericOf b with
    | some x, some y =>
      if x.f = none ∨ y.f = none then compareN3 a b else compareNumbers x y
    | _, _ =>
      match dateOf time a, dateOf time b with
      | some x, some y => threeWay x y
      | _, _ => compareN3 a b

mutual

/-- `compareTermValues` of two subjects. -/
def compareSubjectValues (time : TimeParser) : Subject → Subject → Int
  | .bnode a, .bnode b => threeWay (SubjectOf.bnode a).n3 (SubjectOf.bnode b).n3
  | .uri a, .uri b => threeWay a.value.toList b.value.toList
  | .triple s p o, .triple s' p' o' =>
    let c := compareSubjectValues time s s'
    if c ≠ 0 then c
    else
      let c := threeWay p.value.toList p'.value.toList
      if c ≠ 0 then c else compareValues time o o'
  | a, b => (TermOf.subject a).typeOrder - (TermOf.subject b).typeOrder

/-- `compareTermValues` of two terms. -/
def compareValues (time : TimeParser) : Term → Term → Int
  | .subject a, .subject b => compareSubjectValues time a b
  | .literal a, .literal b => compareLiteralValues time a b
  | a, b => a.typeOrder - b.typeOrder

end

/-- `compareTermValues`. What has no value is before everything. -/
def compareTermValues (time : TimeParser) : Option Term → Option Term → Int
  | none, none => 0
  | none, some _ => -1
  | some _, none => 1
  | some a, some b => compareValues time a b

end GoRdf
