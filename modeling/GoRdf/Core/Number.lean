import Mathlib.NumberTheory.Padics.PadicVal.Defs
import Mathlib.Data.Nat.Size
import GoRdf.Core.Term
import GoRdf.Lib.Comparison
import GoRdf.Lib.FloatFormat

/-!
# Numeric Literals

The numbers of package `sparql`: the value of a numeric literal, how two of them
compare, and arithmetic on integers and decimals.

A `float64` is the rational it stands for, an infinity, or not a number. Its sign
bit and its payload are left out: nothing below looks at them. `strconv.ParseFloat`
is the nearest `float64` to the number a text denotes.

Decimals are computed twice. `scaledArithmetic` does it with an `int64` and a count
of fractional digits, and declines what may not fit; `bigArithmetic` does it with
rationals. An operation on an `int64` whose result does not fit is an error of the
model (`Overflow`), where the source would go on with a wrong number. Sums of
floats and doubles are left out.

## Main definitions

* `Float64`, `parseFloat`: Floats, and how they are read.
* `Numeric`, `numericOf`: The value of a numeric literal.
* `compareNumbers`: The comparison of two values.
* `scaledOf`, `scaledArithmetic`, `Scaled.string`: The fast path for decimals.
* `finiteDigits`, `formatRat`, `bigArithmetic`: The exact path.
* `roundRat`: `ROUND`, `CEIL` and `FLOOR` of a decimal.
* `decimalArithmetic`: `numericArithmetic` on decimals.
-/

namespace GoRdf

open Lib

/-! ## Texts -/

/-- `strings.Cut` at a character: what is before it, and what is behind it if it
    occurs. -/
def cutAt (c : Char) (cs : List Char) : List Char × Option (List Char) :=
  match cs.dropWhile (· != c) with
  | [] => (cs, none)
  | _ :: behind => (cs.takeWhile (· != c), some behind)

/-- `isIntegerLexical`. -/
def isIntegerLexical (cs : List Char) : Bool :=
  allDigits (skipSign cs)

/-- `isDecimalLexical`. -/
def isDecimalLexical (cs : List Char) : Bool :=
  match cutAt '.' (skipSign cs) with
  | (int, none) => allDigits int
  | ([], some frac) => allDigits frac
  | (int, some frac) => allDigits int && (frac.isEmpty || allDigits frac)

/-- The sign of a text. -/
def signOf (cs : List Char) : Int :=
  if cs.head? = some '-' then -1 else 1

/-- `big.Int.SetString` of the text of an integer. -/
def integerValue (cs : List Char) : Int :=
  signOf cs * digitsValue (skipSign cs)

/-- The digits of a decimal before and behind the point. -/
def decimalParts (cs : List Char) : List Char × List Char :=
  let parts := cutAt '.' (skipSign cs)
  (parts.1, parts.2.getD [])

/-- `big.Rat.SetString` of the text of a decimal. -/
def decimalValue (cs : List Char) : ℚ :=
  let (int, frac) := decimalParts cs
  signOf cs * digitsValue (int ++ frac) / 10 ^ frac.length

/-! ## Floats -/

/-- `float64`. -/
def binary64 : FloatFormat where
  digits := 53
  low := -1074
  high := 1024

/-- A `float64`. Not a number is `none`. -/
abbrev Float64 := Option ExtRat

/-- The value of a digit. -/
def digitOf (base : Nat) (c : Char) : Option Nat :=
  if isDigit c then some (c.toNat - '0'.toNat)
  else if base = 16 ∧ 'a' ≤ c.toLower ∧ c.toLower ≤ 'f' then some (c.toLower.toNat - 'a'.toNat + 10)
  else none

/-- A mantissa as it is read: its digits, and how many of them are behind the point. -/
structure Mantissa where
  value : Nat
  frac : Nat
  digits : Bool

/-- The mantissa loop of `readFloat`. -/
def readMantissa (base : Nat) : Bool → Mantissa → List Char → Mantissa × List Char
  | _, m, [] => (m, [])
  | point, m, c :: cs =>
    if c = '_' then readMantissa base point m cs
    else if c = '.' then if point then (m, c :: cs) else readMantissa base true m cs
    else
      match digitOf base c with
      | none => (m, c :: cs)
      | some d =>
        readMantissa base point
          ⟨base * m.value + d, if point then m.frac + 1 else m.frac, true⟩ cs

/-- The exponent loop of `readFloat`. It stops to count at ten thousand. -/
def readExponent : Nat → List Char → Nat × List Char
  | e, [] => (e, [])
  | e, c :: cs =>
    if c = '_' then readExponent e cs
    else if isDigit c then
      readExponent (if e < 10000 then 10 * e + (c.toNat - '0'.toNat) else e) cs
    else (e, c :: cs)

/-- The last character `underscoreOK` has seen. -/
inductive Seen
  | start | digit | underscore | other
deriving DecidableEq

/-- The loop of `underscoreOK`. -/
def underscores (base : Nat) : Seen → List Char → Bool
  | seen, [] => seen != .underscore
  | seen, c :: cs =>
    if (digitOf base c).isSome then underscores base .digit cs
    else if c = '_' then seen == .digit && underscores base .underscore cs
    else seen != .underscore && underscores base .other cs

/-- The base a text is written in, and what follows its prefix. -/
def splitBase : List Char → Nat × List Char
  | '0' :: x :: c :: cs => if x.toLower = 'x' then (16, c :: cs) else (10, '0' :: x :: c :: cs)
  | cs => (10, cs)

/-- `readFloat`: the number a text denotes. -/
def readFloat (cs : List Char) : Option ℚ :=
  let (base, body) := splitBase (skipSign cs)
  let (m, rest) := readMantissa base false ⟨0, 0, false⟩ body
  let mark := if base = 16 then 'p' else 'e'
  let exponent : Option (Int × List Char) :=
    match rest with
    | c :: rest =>
      if c.toLower = mark then
        if ((skipSign rest).head?.map isDigit).getD false then
          let (e, rest') := readExponent 0 (skipSign rest)
          some (signOf rest * e, rest')
        else none
      else if base = 16 then none else some (0, c :: rest)
    | [] => if base = 16 then none else some (0, [])
  match exponent with
  | some (e, []) =>
    if m.digits && underscores base (if base = 16 then .digit else .start) body then
      some (signOf cs * m.value / base ^ m.frac * (if base = 16 then 2 else 10) ^ e)
    else none
  | _ => none

/-- `strconv.ParseFloat`: the value, and whether it is in range. -/
def parseFloat (cs : List Char) : Option (Float64 × Bool) :=
  let lower := cs.map Char.toLower
  if lower = ['n', 'a', 'n'] then some (none, true)
  else if skipSign lower = "inf".toList ∨ skipSign lower = "infinity".toList then
    some (some (if signOf cs = 1 then ⊤ else ⊥), true)
  else
    (readFloat cs).map fun q =>
      let f := binary64.round q
      (some f, decide (f ≠ ⊤ ∧ f ≠ ⊥))

/-- `strconv.ParseFloat` when it has no error. -/
def floatValue (cs : List Char) : Option Float64 :=
  (parseFloat cs).bind fun parsed => if parsed.2 then some parsed.1 else none

/-- `cmpFloat`: nothing is before or behind what is not a number. -/
def cmpFloat : Float64 → Float64 → Int
  | some x, some y => threeWay x y
  | _, _ => 0

/-- `math.Abs(f) >= q`. -/
def Float64.absGe (f : Float64) (q : ℚ) : Bool :=
  match f with
  | some x => decide (ExtRat.ofRat q ≤ x ∨ x ≤ ExtRat.ofRat (-q))
  | none => false

/-! ## Values -/

/-- `numKind`. -/
inductive NumKind
  | integer | decimal | float | double
deriving DecidableEq

/-- The kinds that have an exact value: `kind <= numDecimal`. -/
def NumKind.isExact : NumKind → Bool
  | .integer => true
  | .decimal => true
  | _ => false

/-- An IRI of the XML Schema namespace. -/
def xsd (name : String) : String :=
  "http://www.w3.org/2001/XMLSchema#" ++ name

/-- The bounds of a signed type. -/
def signedRange (bits : Nat) : Option Int × Option Int :=
  (some (-(2 ^ (bits - 1))), some (2 ^ (bits - 1) - 1))

/-- The bounds of an unsigned type. -/
def unsignedRange (bits : Nat) : Option Int × Option Int :=
  (some 0, some (2 ^ bits - 1))

/-- `integerTypes`: `xsd:integer` and the types derived from it, with the bounds of
    their values. -/
def integerTypes : List (String × Option Int × Option Int) :=
  [(xsdInteger, none, none),
   (xsd "nonPositiveInteger", none, some 0),
   (xsd "negativeInteger", none, some (-1)),
   (xsd "long", signedRange 64),
   (xsd "int", signedRange 32),
   (xsd "short", signedRange 16),
   (xsd "byte", signedRange 8),
   (xsd "nonNegativeInteger", some 0, none),
   (xsd "unsignedLong", unsignedRange 64),
   (xsd "unsignedInt", unsignedRange 32),
   (xsd "unsignedShort", unsignedRange 16),
   (xsd "unsignedByte", unsignedRange 8),
   (xsd "positiveInteger", some 1, none)]

/-- `numericKind`. -/
def numericKind (datatype : String) : Option NumKind :=
  if datatype ∈ integerTypes.map Prod.fst then some .integer
  else if datatype = xsdDecimal then some .decimal
  else if datatype = xsd "float" then some .float
  else if datatype = xsdDouble then some .double
  else none

/-- `numeric`. A literal of a decimal keeps its text, and a computed decimal its
    value. -/
structure Numeric where
  kind : NumKind
  f : Float64
  i : Option Int
  r : Option ℚ
  lex : List Char
  fexact : Bool

/-- `numeric.exact`. A float, which the source would write and read again, is asked for
    no exact value. -/
def Numeric.exact (n : Numeric) : Option ℚ :=
  match n.r, n.i with
  | some r, _ => some r
  | none, some i => some i
  | none, none => if n.lex = [] then none else some (decimalValue n.lex)

/-- `significantDigits`. -/
def significantDigits (cs : List Char) : Nat :=
  ((cs.filter isDigit).dropWhile (· == '0')).length

/-- `minNormalFloat64`. -/
def minNormalFloat64 : ℚ :=
  2 ^ (-1022 : Int)

/-- `parseDoubleLexical`. -/
def parseDoubleLexical (cs : List Char) : Option Float64 :=
  if cs = "INF".toList ∨ cs = "+INF".toList then some (some ⊤)
  else if cs = "-INF".toList then some (some ⊥)
  else if cs = "NaN".toList then some none
  else
    -- The first `E` is taken for an `e`.
    let split := cs.span fun c => c != 'e' && c != 'E'
    let exponent := match split.2 with
      | [] => true
      | _ :: e => isIntegerLexical e
    if isDecimalLexical split.1 && exponent then (parseFloat cs).map Prod.fst else none

/-- The datatype, of a literal that has no language tag. -/
def LiteralOf.datatype {ok : Char → Bool} (l : LiteralOf ok) : Option String :=
  match l.kind with
  | .typed dt _ => some dt.value
  | _ => none

/-- The value is between the bounds of its type. -/
def withinBounds (range : Option Int × Option Int) (i : Int) : Bool :=
  range.1.all (fun low => decide (low ≤ i)) && range.2.all fun high => decide (i ≤ high)

/-- `numericOf`, of a datatype and a text. -/
def numericValue (datatype : String) (cs : List Char) : Option Numeric :=
  match numericKind datatype with
  | none => none
  | some .integer =>
    if isIntegerLexical cs then
      let i := integerValue cs
      if withinBounds ((integerTypes.lookup datatype).getD (none, none)) i then
        some
          { kind := .integer
            f := some (binary64.round i)
            i := some i
            r := none
            lex := []
            fexact := decide (i.natAbs.size ≤ 53) }
      else none
    else none
  | some .decimal =>
    if isDecimalLexical cs then
      (parseFloat cs).map fun parsed =>
        let sig := significantDigits cs
        { kind := .decimal
          f := parsed.1
          i := none
          r := none
          lex := cs
          fexact := sig == 0 || decide (sig ≤ 15) && parsed.1.absGe minNormalFloat64 }
    else none
  | some kind =>
    (parseDoubleLexical cs).map fun f =>
      { kind := kind
        f := f
        i := none
        r := none
        lex := []
        fexact := false }

/-- `numericOf`. -/
def numericOf {ok : Char → Bool} (l : LiteralOf ok) : Option Numeric :=
  l.datatype.bind fun datatype => numericValue datatype l.lexical.toList

/-- `big.Rat.Cmp`. -/
def cmpExact (a b : Option ℚ) : Int :=
  match a, b with
  | some x, some y => threeWay x y
  | _, _ => 0

/-- `compareNumbers`. -/
def compareNumbers (a b : Numeric) : Int :=
  if a.kind = .integer ∧ b.kind = .integer then threeWay (a.i.getD 0) (b.i.getD 0)
  else if a.kind.isExact ∧ b.kind.isExact ∧ ¬ (a.fexact = true ∧ b.fexact = true) then
    cmpExact a.exact b.exact
  else cmpFloat a.f b.f

/-! ## Scaled decimals -/

/-- An operation on an `int64` whose result does not fit. -/
inductive Overflow
  | overflow
deriving DecidableEq

/-- The result of an operation on an `int64`. -/
def int64 (v : Int) : Except Overflow Int :=
  if -(2 ^ 63) ≤ v ∧ v < 2 ^ 63 then .ok v else .error .overflow

/-- `scaled`: a mantissa, and how many of its digits are fractional. -/
structure Scaled where
  m : Int
  scale : Nat
deriving DecidableEq

/-- `maxScaledDigits`. -/
def maxScaledDigits : Nat := 17

/-- The digits of a mantissa, one after the other. -/
def scaleDigits (cs : List Char) (m : Int) : Except Overflow Int :=
  cs.foldlM (fun m c => do
    let shifted ← int64 (m * 10)
    int64 (shifted + (c.toNat - '0'.toNat : Nat))) m

/-- `scaledOf` of the text of a decimal. -/
def scaledDecimal (cs : List Char) : Except Overflow (Option Scaled) := do
  let (int, frac) := decimalParts cs
  if maxScaledDigits < int.length + frac.length then return none
  let m ← scaleDigits (int ++ frac) 0
  let m ← if signOf cs = 1 then pure m else int64 (-m)
  return some ⟨m, frac.length⟩

/-- `scaledOf`. -/
def scaledOf (n : Numeric) : Except Overflow (Option Scaled) :=
  match n.kind, n.i, n.r with
  | .integer, some i, _ =>
    if -(2 ^ 63) ≤ i ∧ i < 2 ^ 63 ∧ -(10 ^ maxScaledDigits) < i ∧ i < 10 ^ maxScaledDigits then
      .ok (some ⟨i, 0⟩)
    else .ok none
  | .decimal, _, none => if n.lex = [] then .ok none else scaledDecimal n.lex
  | _, _, _ => .ok none

/-- `abs64`. -/
def abs64 (v : Int) : Except Overflow Int :=
  if v < 0 then int64 (-v) else .ok v

/-- The loop that brings a scaled decimal to a larger scale, by as many digits. -/
def rescale : Nat → Int → Except Overflow (Option Int)
  | 0, m => .ok (some m)
  | n + 1, m => do
      let a ← abs64 m
      if 10 ^ maxScaledDigits ≤ a then return none
      let m ← int64 (m * 10)
      rescale n m

/-- `+`, `-`, `*` and `/`. -/
inductive ArithOp
  | add | sub | mul | div
deriving DecidableEq

/-- The product of two scaled decimals, unless it does not fit. `bits.Mul64` has the
    high and the low word of the product. -/
def mulScaled (x y : Scaled) : Except Overflow (Option Scaled) := do
  let a ← abs64 x.m
  let b ← abs64 y.m
  let hi := a * b / 2 ^ 64
  let lo := a * b % 2 ^ 64
  if hi ≠ 0 ∨ 2 ^ 63 - 1 < lo ∨ 18 < x.scale + y.scale then return none
  let m ← if decide (x.m < 0) ≠ decide (y.m < 0) then int64 (-lo) else pure lo
  return some ⟨m, x.scale + y.scale⟩

/-- The sum or difference of two scaled decimals, unless one cannot be aligned. -/
def addScaled (negate : Bool) (x y : Scaled) : Except Overflow (Option Scaled) := do
  match ← rescale (y.scale - x.scale) x.m with
  | none => return none
  | some xm =>
    match ← rescale (x.scale - y.scale) y.m with
    | none => return none
    | some ym =>
      let ym ← if negate then int64 (-ym) else pure ym
      let m ← int64 (xm + ym)
      return some ⟨m, max x.scale y.scale⟩

/-- `strings.TrimRight` of zeros. -/
def trimZeros (cs : List Char) : List Char :=
  (cs.reverse.dropWhile (· == '0')).reverse

/-- As many zeros as are missing at the front. -/
def padZeros (width : Nat) (cs : List Char) : List Char :=
  List.replicate (width - cs.length) '0' ++ cs

/-- The digits of a mantissa with a point before the last `scale` of them. -/
def scaledText (scale : Nat) (digits : List Char) : List Char :=
  if 0 < scale then
    let digits := padZeros (scale + 1) digits
    let int := digits.take (digits.length - scale)
    let frac := trimZeros (digits.drop (digits.length - scale))
    if frac = [] then int else int ++ '.' :: frac
  else digits

/-- `scaled.String`. -/
def Scaled.string (s : Scaled) : Except Overflow (List Char) := do
  let a ← abs64 s.m
  let text := scaledText s.scale (Nat.toDigits 10 a.toNat)
  return if s.m < 0 ∧ text ≠ ['0'] then '-' :: text else text

/-- The operation of `scaledArithmetic`. What is not a product or a difference is a sum. -/
def combineScaled (op : ArithOp) (x y : Scaled) : Except Overflow (Option Scaled) :=
  if op = .mul then mulScaled x y else addScaled (decide (op = .sub)) x y

/-- `scaledArithmetic`. -/
def scaledArithmetic (op : ArithOp) (a b : Numeric) : Except Overflow (Option (List Char)) := do
  match ← scaledOf a with
  | none => return none
  | some x =>
    match ← scaledOf b with
    | none => return none
    | some y =>
      match ← combineScaled op x y with
      | none => return none
      | some r => some <$> r.string

/-! ## Exact decimals -/

/-- `math.Log2(5)`: 2.321928094887362, the `float64` nearest to the logarithm, or one of
    its neighbours. -/
structure Log2Five where
  value : ℚ
  near : |value - 5228517251457905 / 2 ^ 51| ≤ 1 / 2 ^ 51

/-- `int(float64(bits) / math.Log2(5))`. -/
def Log2Five.guess (log2 : Log2Five) (bits : Nat) : Nat :=
  ⌊binary64.roundSigned (binary64.roundSigned bits / log2.value)⌋.toNat

/-- The exponent of a power of five, if the number is one of those around the guess. -/
def fiveExponent (log2 : Log2Five) (n : Nat) : Option Nat :=
  let guess := log2.guess (n.size - 1)
  [guess, guess + 1, guess - 1].find? fun b => decide (1 ≤ b ∧ 5 ^ b = n)

/-- `finiteDigits`: how many fractional digits a fraction with this denominator has. -/
def finiteDigits (log2 : Log2Five) (d : Nat) : Option Nat :=
  let twos := padicValNat 2 d
  let n := d / 2 ^ twos
  if n.size ≤ 1 then some twos else (fiveExponent log2 n).map (max twos)

/-- `big.Rat.FloatString`: the last digit is rounded, and halves away from zero. -/
def floatString (x : ℚ) (prec : Nat) : List Char :=
  let p := 10 ^ prec
  let q := x.num.natAbs / x.den
  let r := x.num.natAbs % x.den * p
  let up := decide (x.den ≤ 2 * (r % x.den))
  let r := if up then r / x.den + 1 else r / x.den
  let carry := decide (p ≤ r)
  let q := if carry then q + 1 else q
  let r := if carry then r - p else r
  (if x < 0 then ['-'] else []) ++ Nat.toDigits 10 q ++
    if 0 < prec then '.' :: padZeros prec (Nat.toDigits 10 r) else []

/-- `decimalDigits`. -/
def decimalDigits : Nat := 18

/-- `formatRat`. -/
def formatRat (log2 : Log2Five) (x : ℚ) : List Char :=
  let s := floatString x ((finiteDigits log2 x.den).getD decimalDigits)
  let s :=
    if s.contains '.' then ((trimZeros s).reverse.dropWhile (· == '.')).reverse else s
  if s = ['-', '0'] then ['0'] else s

/-- `roundMode`. -/
inductive RoundMode
  | round
  | ceil
  | floor

/-- `floor` of `roundRat`: `QuoRem` truncates. -/
def floorRat (x : ℚ) : Int :=
  let q := x.num.tdiv x.den
  if x.num.tmod x.den < 0 then q - 1 else q

/-- `roundRat`. -/
def roundRat (r : ℚ) : RoundMode → ℚ
  | .floor => floorRat r
  | .ceil => -floorRat (-r)
  | .round => floorRat (r + 1 / 2)

/-- `maxDecimalBits`. -/
def maxDecimalBits : Nat := 4096

/-- The value needs more bits than a computed decimal may have. -/
def tooLong (x : ℚ) : Bool :=
  decide (maxDecimalBits < x.num.natAbs.size ∨ maxDecimalBits < x.den.size)

/-- The operations on `big.Rat` of `numericArithmetic`. A quotient without a finite
    expansion is kept as it would be written. -/
def ratArithmetic (log2 : Log2Five) (op : ArithOp) (x y : ℚ) : Option ℚ :=
  let r : Option ℚ :=
    match op with
    | .add => some (x + y)
    | .sub => some (x - y)
    | .mul => some (x * y)
    | .div =>
      if y = 0 ∨ tooLong (x / y) then none
      else if (finiteDigits log2 (x / y).den).isSome then some (x / y)
      else some (decimalValue (floatString (x / y) decimalDigits))
  r.bind fun r => if tooLong r then none else some r

/-- The text of a decimal that is computed exactly. -/
def bigArithmetic (log2 : Log2Five) (op : ArithOp) (a b : Numeric) : Option (List Char) :=
  a.exact.bind fun x => b.exact.bind fun y => (ratArithmetic log2 op x y).map (formatRat log2)

/-- `numericArithmetic`, where the wider operand is a decimal: the text of the result. -/
def decimalArithmetic (log2 : Log2Five) (op : ArithOp) (a b : Numeric) :
    Except Overflow (Option (List Char)) :=
  if op = .div then .ok (bigArithmetic log2 op a b)
  else do
    match ← scaledArithmetic op a b with
    | some s => return some s
    | none => return bigArithmetic log2 op a b

end GoRdf
