import GoRdf.Core.Decode
import GoRdf.Core.Number

/-!
# Choosing a Result Format

`sparql/results/negotiate.go`: the format of a result, chosen by the `Accept` header
of the request.

## Main definitions

* `Format`, `MediaRange`: What is offered, and what the client asks for.
* `parseAccept`: The media ranges of a header.
* `negotiateAmong`: The choice.
-/

namespace GoRdf

/-- A `Format`: one of the four, or a number that is none of them. -/
inductive Format
  | json
  | xml
  | csv
  | tsv
  | unknown (n : Int)
  deriving DecidableEq

/-- `MediaType`. -/
def Format.mediaType : Format → List Char
  | .json => "application/sparql-results+json".toList
  | .xml => "application/sparql-results+xml".toList
  | .csv => "text/csv".toList
  | .tsv => "text/tab-separated-values".toList
  | .unknown _ => []

/-- `aliases`. -/
def formatAlias (full : List Char) : Option Format :=
  if full = "application/json".toList then some .json
  else if full = "application/xml".toList ∨ full = "text/xml".toList then some .xml
  else none

/-- `mediaRange`, with its quality in thousandths. -/
structure MediaRange where
  typ : List Char
  sub : List Char
  q : Nat
  deriving DecidableEq

/-- The specificity of no match. -/
def matchNone : Int :=
  -1

/-- `match`: how specifically the range matches the format. -/
def MediaRange.specificity (r : MediaRange) (f : Format) : Int :=
  let full := r.typ ++ '/' :: r.sub
  if f.mediaType = [] then matchNone
  else if r.typ = ['*'] then 0
  else if full = f.mediaType then 3
  else if formatAlias full = some f then 2
  else if r.sub = ['*'] ∧ (r.typ ++ ['/']).isPrefixOf f.mediaType then 1
  else matchNone

/-! ## The header -/

/-- The loop of `splitQuoted`, with what is read of the current part. -/
def splitQuotedFrom (sep : Char) : Bool → List Char → List Char → List (List Char)
  | _, cur, [] => [cur]
  | true, cur, '\\' :: c :: cs => splitQuotedFrom sep true (cur ++ ['\\', c]) cs
  | inQuote, cur, c :: cs =>
    if c = '\x22' then splitQuotedFrom sep (!inQuote) (cur ++ [c]) cs
    else if c = sep ∧ inQuote = false then cur :: splitQuotedFrom sep inQuote [] cs
    else splitQuotedFrom sep inQuote (cur ++ [c]) cs

/-- `splitQuoted`. -/
def splitQuoted (sep : Char) (cs : List Char) : List (List Char) :=
  splitQuotedFrom sep false [] cs

/-- `isToken`. -/
def isToken (cs : List Char) : Bool :=
  !cs.isEmpty && cs.all fun c => c.isAlphanum || "!#$%&'*+-.^_\x60|~".toList.contains c

/-- `unicode.ToLower` where the result is in ASCII: two letters from elsewhere have a small
    letter there. -/
def toLowerASCII (c : Char) : Char :=
  if c = 'İ' then 'i' else if c = 'K' then 'k' else c.toLower

/-- The digits of a quality behind its point. -/
def qDigits (q scale : Nat) : List Char → Option Nat
  | [] => if q > 1000 then none else some q
  | c :: cs =>
    if c.isDigit then qDigits (q + (c.toNat - '0'.toNat) * scale) (scale / 10) cs else none

/-- `parseQValue`. -/
def parseQValue (cs : List Char) : Option Nat :=
  if cs.length > 5 then none
  else match cs with
    | ['0'] => some 0
    | ['1'] => some 1000
    | '0' :: '.' :: ds => qDigits 0 100 ds
    | '1' :: '.' :: ds => qDigits 1000 100 ds
    | _ => none

/-- The first parameter `q`. -/
def qParameter : List (List Char) → Option Nat
  | [] => some 1000
  | p :: ps =>
    let (name, value) := cutAt '=' p
    if trimSpace name = ['q'] ∨ trimSpace name = ['Q'] then parseQValue (trimSpace (value.getD []))
    else qParameter ps

/-- One element of a header, if it is valid. -/
def parseRange (elem : List Char) : Option MediaRange :=
  match splitQuoted ';' elem with
  | [] => none
  | range :: params =>
    match cutAt '/' ((trimSpace range).map toLowerASCII) with
    | (_, none) => none
    | (typ, some sub) =>
      if !isToken typ || !isToken sub || (typ == ['*'] && sub != ['*']) then none
      else (qParameter params).map (MediaRange.mk typ sub)

/-- `parseAccept`. -/
def parseAccept (accept : List Char) : List MediaRange :=
  (splitQuoted ',' accept).filterMap parseRange

/-! ## The choice -/

/-- The inner loop: the quality and the specificity of an offer, one range further. -/
def weighRange (f : Format) (acc : Nat × Int) (r : MediaRange) : Nat × Int :=
  let s := r.specificity f
  if s < acc.2 ∨ s = matchNone then acc
  else (if s > acc.2 ∨ r.q > acc.1 then r.q else acc.1, s)

/-- The outer loop: the best offer with its quality and specificity, one offer further. -/
def chooseOffer (ranges : List MediaRange) (best : Format × Nat × Int) (f : Format) :
    Format × Nat × Int :=
  let (q, spec) := ranges.foldl (weighRange f) (0, matchNone)
  if spec = matchNone ∨ q = 0 then best
  else if q > best.2.1 ∨ q = best.2.1 ∧ spec > best.2.2 then (f, q, spec)
  else best

/-- `NegotiateAmong`. -/
def negotiateAmong (accept : List Char) (offers : List Format) : Format × Bool :=
  match offers with
  | [] => (.unknown 0, false)
  | f :: _ =>
    if trimSpace accept = [] then (f, true)
    else
      let best := offers.foldl (chooseOffer (parseAccept accept)) (.unknown 0, 0, matchNone)
      (best.1, decide (best.2.1 > 0))

end GoRdf
