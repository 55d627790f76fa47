import GoRdf.Core.NQuads
import GoRdf.Core.Number

/-!
# Equality of Values

`Literal.ValueEqual`: literals of one datatype are equal when their texts denote one
value. A text that denotes none is equal to itself only.

`strconv.ParseFloat` of a text that `parseXSDFloat` lets through is the number of the
format that is nearest to it. The `int64` of a date is an integer here: a year of at
most 12 digits leaves it in range.

## Main definitions

* `smallXSDInteger`, `parseXSDInteger`: The two readers of an integer.
* `DateTimeFields`, `readDateTime`: What stands in the text of a date.
* `daysFromCivil`, `parseXSDDateTime`: The point of the timeline it denotes.
* `valueEqual`: The comparison.
-/

namespace GoRdf

open Lib

/-- `sameValue`. A text without a value is handed over as `none`. -/
def sameValue {α : Type} (x y : Option α) (a b : List Char) (eq : α → α → Bool) : Bool :=
  match x, y with
  | some x, some y => eq x y
  | none, none => a == b
  | _, _ => false

/-! ## Numbers -/

/-- The length of a text in bytes. -/
def byteLength (cs : List Char) : Nat :=
  (cs.map Char.utf8Size).sum

/-- The characters `strings.TrimLeft` takes off. -/
def isSign (c : Char) : Bool :=
  c == '+' || c == '-'

/-- `parseXSDInteger`. -/
def parseXSDInteger (cs : List Char) (range : Option Int × Option Int) : Option Int :=
  if 1 < (cs.takeWhile isSign).length || !allDigits (cs.dropWhile isSign) then none
  else if withinBounds range (integerValue cs) then some (integerValue cs)
  else none

/-- A bound as `init` clamps it to an `int64`. -/
def clamped (limit : Int) : Option Int → Int
  | some bound => if -(2 ^ 63) ≤ bound ∧ bound < 2 ^ 63 then bound else limit
  | none => limit

/-- `smallXSDInteger`: nothing if the text is not small. -/
def smallXSDInteger (cs : List Char) (range : Option Int × Option Int) : Option (Option Int) :=
  let digits := skipSign cs
  if 18 < byteLength digits then none
  else if !allDigits digits then some none
  else
    match parseInt64 cs with
    | none => some none
    | some v =>
      if v < clamped (-(2 ^ 63)) range.1 ∨ clamped (2 ^ 63 - 1) range.2 < v then some none
      else some (some v)

/-- The comparison of two integers by `parseXSDInteger`. -/
def bigIntegerEqual (range : Option Int × Option Int) (a b : List Char) : Bool :=
  sameValue (parseXSDInteger a range) (parseXSDInteger b range) a b (· == ·)

/-- The comparison of two integers, on the fast path if both are small. -/
def integerEqual (range : Option Int × Option Int) (a b : List Char) : Bool :=
  match smallXSDInteger a range, smallXSDInteger b range with
  | some x, some y => sameValue x y a b (· == ·)
  | _, _ => bigIntegerEqual range a b

/-- `parseXSDDecimal`. -/
def parseXSDDecimal (cs : List Char) : Option ℚ :=
  let (int, behind) := cutAt '.' (skipSign cs)
  let frac := behind.getD []
  if !allDigits int && int != [] || !allDigits frac && frac != [] then none
  else if int = [] ∧ (frac = [] ∨ behind = none) then none
  else some (decimalValue cs)

/-- `float32`. -/
def binary32 : FloatFormat where
  digits := 24
  low := -149
  high := 128

/-- `parseXSDFloat`. -/
def parseXSDFloat (format : FloatFormat) (cs : List Char) : Option Float64 :=
  if cs = "INF".toList ∨ cs = "+INF".toList then some (some ⊤)
  else if cs = "-INF".toList then some (some ⊥)
  else if cs = "NaN".toList then some none
  else
    let (mantissa, exponent) := cs.span fun c => c != 'e' && c != 'E'
    if exponent ≠ [] ∧ !allDigits (skipSign exponent.tail) then none
    else if (parseXSDDecimal mantissa).isNone then none
    else (readFloat cs).map fun q => some (format.round q)

/-- `==` of floats: not a number is not equal to itself. -/
def floatEqual (x y : Float64) : Bool :=
  x.isSome && decide (x = y)

/-- `parseXSDBoolean`. -/
def parseXSDBoolean (cs : List Char) : Option Bool :=
  if cs = "true".toList ∨ cs = ['1'] then some true
  else if cs = "false".toList ∨ cs = ['0'] then some false
  else none

/-! ## Dates -/

/-- `twoDigits`. -/
def twoDigits (cs : List Char) : Option Nat :=
  if cs.length = 2 ∧ allDigits cs then some (digitsValue cs) else none

/-- `isLeapYear`. -/
def isLeapYear (y : Int) : Bool :=
  y % 4 == 0 && (y % 100 != 0 || y % 400 == 0)

/-- `daysInMonth`. -/
def daysInMonth (y : Int) (m : Nat) : Nat :=
  if m = 2 then if isLeapYear y then 29 else 28
  else if m = 4 ∨ m = 6 ∨ m = 9 ∨ m = 11 then 30
  else 31

/-- `floorDiv`. -/
def floorDiv (a b : Int) : Int :=
  let q := a.tdiv b
  if a.tmod b ≠ 0 ∧ decide (a < 0) ≠ decide (b < 0) then q - 1 else q

/-- `daysFromCivil`. -/
def daysFromCivil (y : Int) (m d : Nat) : Int :=
  let y := if m ≤ 2 then y - 1 else y
  let era := floorDiv y 400
  let yoe := y - era * 400
  let mp : Int := ((m + 9) % 12 : Nat)
  let doy := (153 * mp + 2) / 5 + d - 1
  let doe := yoe * 365 + yoe / 4 - yoe / 100 + doy
  era * 146097 + doe

/-- What `parseXSDDateTime` reads: the fraction without zeros at its end, and the offset
    of the time zone in seconds. -/
structure DateTimeFields where
  year : Int
  month : Nat
  day : Nat
  hour : Nat
  minute : Nat
  second : Nat
  frac : List Char
  zone : Option Int

/-- The fraction of a second, and what follows. -/
def readFraction : List Char → Option (List Char × List Char)
  | '.' :: cs =>
    if (cs.takeWhile isDigit).isEmpty then none
    else some (trimZeros (cs.takeWhile isDigit), cs.dropWhile isDigit)
  | cs => some ([], cs)

/-- The time zone, which may be missing. -/
def readZone (cs : List Char) : Option (Option Int) :=
  if cs = [] then some none
  else if cs = ['Z'] then some (some 0)
  else if cs.length = 6 ∧ (cs[0]? = some '+' ∨ cs[0]? = some '-') ∧ cs[3]? = some ':' then do
    let th ← twoDigits ((cs.drop 1).take 2)
    let tm ← twoDigits ((cs.drop 4).take 2)
    if 59 < tm ∨ 14 < th ∨ th = 14 ∧ tm ≠ 0 then none
    else
      let offset : Int := (th * 60 + tm) * 60
      return some (if cs[0]? = some '-' then -offset else offset)
  else none

/-- The first half of `parseXSDDateTime`. -/
def readDateTime (cs : List Char) : Option DateTimeFields := do
  let neg := cs.head? == some '-'
  let (yearStr, behind) := cutAt '-' (if neg then cs.tail else cs)
  let rest ← behind
  if yearStr.length < 4 ∨ 12 < yearStr.length ∨ !allDigits yearStr ∨
      4 < yearStr.length ∧ yearStr.head? = some '0' then none
  else
    let year : Int := if neg then -digitsValue yearStr else digitsValue yearStr
    if rest.length < 14 ∨ rest[2]? ≠ some '-' ∨ rest[5]? ≠ some 'T' ∨ rest[8]? ≠ some ':' ∨
        rest[11]? ≠ some ':' then none
    else
      let month ← twoDigits (rest.take 2)
      let day ← twoDigits ((rest.drop 3).take 2)
      let hour ← twoDigits ((rest.drop 6).take 2)
      let minute ← twoDigits ((rest.drop 9).take 2)
      let second ← twoDigits ((rest.drop 12).take 2)
      let (frac, rest) ← readFraction (rest.drop 14)
      if month < 1 ∨ 12 < month ∨ day < 1 ∨ daysInMonth year month < day ∨ 59 < minute ∨
          59 < second then none
      else if hour = 24 ∧ (minute ≠ 0 ∨ second ≠ 0 ∨ frac ≠ []) then none
      else if 24 < hour then none
      else
        let zone ← readZone rest
        return ⟨year, month, day, hour, minute, second, frac, zone⟩

/-- `dateTimeValue`. -/
structure DateTimeValue where
  days : Int
  seconds : Int
  frac : List Char
  timezone : Bool
deriving DecidableEq

/-- The second half of `parseXSDDateTime`. -/
def DateTimeFields.value (f : DateTimeFields) : DateTimeValue :=
  let seconds : Int := f.hour * 3600 + f.minute * 60 + f.second - f.zone.getD 0
  { days := daysFromCivil f.year f.month f.day + floorDiv seconds 86400
    seconds := seconds - floorDiv seconds 86400 * 86400
    frac := f.frac
    timezone := f.zone.isSome }

/-- `parseXSDDateTime`. -/
def parseXSDDateTime (cs : List Char) : Option DateTimeValue :=
  (readDateTime cs).map DateTimeFields.value

/-! ## Literals -/

/-- The language tag and the direction, of a literal that has them. -/
def LiteralKind.tagAndDir : LiteralKind anyChar → List Char × Option Direction
  | .typed _ _ => ([], none)
  | .lang tag => (tag.value.toList, none)
  | .dirLang tag dir => (tag.value.toList, some dir)

/-- `strings.EqualFold`, of language tags. -/
def equalFold (a b : List Char) : Bool :=
  a.map Char.toLower == b.map Char.toLower

/-- `valueEqual`. -/
def valueEqual (l other : LiteralOf anyChar) : Bool :=
  let dt := l.kind.datatypeText
  let a := l.lexical.toList
  let b := other.lexical.toList
  if dt ≠ other.kind.datatypeText then false
  else if a = b ∧ dt ≠ rdfLangString ∧ dt ≠ rdfDirLangString ∧
      ¬ ((dt = xsdDouble ∨ dt = xsd "float") ∧ a = "NaN".toList) then true
  else
    match integerTypes.lookup dt with
    | some range => integerEqual range a b
    | none =>
      if dt = xsdDecimal then sameValue (parseXSDDecimal a) (parseXSDDecimal b) a b (· == ·)
      else if dt = xsdDouble then
        sameValue (parseXSDFloat binary64 a) (parseXSDFloat binary64 b) a b floatEqual
      else if dt = xsd "float" then
        sameValue (parseXSDFloat binary32 a) (parseXSDFloat binary32 b) a b floatEqual
      else if dt = xsdBoolean then
        sameValue (parseXSDBoolean a) (parseXSDBoolean b) a b (· == ·)
      else if dt = xsd "dateTime" then
        sameValue (parseXSDDateTime a) (parseXSDDateTime b) a b (· == ·)
      else if dt = rdfLangString ∨ dt = rdfDirLangString then
        a == b && equalFold l.kind.tagAndDir.1 other.kind.tagAndDir.1 &&
          l.kind.tagAndDir.2 == other.kind.tagAndDir.2
      else a == b

end GoRdf
