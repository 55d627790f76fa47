import Mathlib.Data.List.Basic

/-!
# References

Package `internal/iri`: resolving a reference against a base, on the texts themselves, and
writing a target as a reference. Nothing is encoded or decoded, so a text is a list of
bytes, written as characters. The readers of Turtle and TriG leave a reference alone that
has a scheme, and resolve every other one.

## Main definitions

* `Components`, `split`, `Components.string`: A reference in its parts.
* `removeDotSegments`: Paths without `.` and `..`.
* `resolve`: A reference against a base.
* `relativize`: The shortest reference found for a target.
* `resolveIRI`: What the readers of Turtle and TriG do with an IRI.
-/

namespace GoRdf

namespace Iri

/-- A text, as a list of bytes. -/
abbrev Text := List Char

/-! ## Components -/

/-- `components`. A component that is not there is none, which is not the same as empty. -/
structure Components where
  scheme : Option Text
  authority : Option Text
  path : Text
  query : Option Text
  fragment : Option Text
deriving DecidableEq

/-- A letter. -/
def isLetter (c : Char) : Bool :=
  (decide ('a' ≤ c) && decide (c ≤ 'z')) || (decide ('A' ≤ c) && decide (c ≤ 'Z'))

/-- What a scheme has after its first letter. -/
def isSchemeChar (c : Char) : Bool :=
  isLetter c || (decide ('0' ≤ c) && decide (c ≤ '9')) || c == '+' || c == '-' || c == '.'

/-- `validScheme`. -/
def validScheme : Text → Bool
  | [] => false
  | c :: cs => isLetter c && cs.all isSchemeChar

/-- The text up to the first of the marks, and the text from it on. -/
def spanMarks (marks : List Char) (s : Text) : Text × Text :=
  (s.takeWhile fun c => !marks.contains c, s.dropWhile fun c => !marks.contains c)

/-- The scheme, and the text after the colon. -/
def splitScheme (s : Text) : Option Text × Text :=
  let (head, rest) := spanMarks [':', '/', '?', '#'] s
  match rest with
  | c :: after => if c = ':' ∧ validScheme head then (some head, after) else (none, s)
  | [] => (none, s)

/-- The authority, and the text after it. -/
def splitAuthority (s : Text) : Option Text × Text :=
  if ['/', '/'].isPrefixOf s then
    let (authority, rest) := spanMarks ['/', '?', '#'] (s.drop 2)
    (some authority, rest)
  else (none, s)

/-- The text before the mark, and the text after it if it is there. -/
def cutAt (mark : Char) (s : Text) : Text × Option Text :=
  let (before, rest) := spanMarks [mark] s
  match rest with
  | _ :: after => (before, some after)
  | [] => (before, none)

/-- `split`. -/
def split (s : Text) : Components :=
  let (scheme, s) := splitScheme s
  let (authority, s) := splitAuthority s
  let (s, fragment) := cutAt '#' s
  let (path, query) := cutAt '?' s
  ⟨scheme, authority, path, query, fragment⟩

/-- `IsAbsolute`. -/
def isAbsolute (s : Text) : Bool :=
  (split s).scheme.isSome

/-- A component with the mark before it. -/
def marked (mark : Text) (component : Option Text) : Text :=
  component.elim [] fun text => mark ++ text

/-- `String`. -/
def Components.string (c : Components) : Text :=
  c.scheme.elim [] (· ++ [':']) ++ marked ['/', '/'] c.authority ++ c.path ++
    marked ['?'] c.query ++ marked ['#'] c.fragment

/-! ## Dot segments -/

/-- The first segment of a path with its slash, and the rest of the path. -/
def firstSegment : Text → Text × Text
  | '/' :: path => ('/' :: (spanMarks ['/'] path).1, (spanMarks ['/'] path).2)
  | path => spanMarks ['/'] path

/-- One turn of `removeDotSegments`, on the input and the segments of the output. -/
def dotStep (input : Text) (out : List Text) : Text × List Text :=
  if ['.', '.', '/'].isPrefixOf input then (input.drop 3, out)
  else if ['.', '/'].isPrefixOf input then (input.drop 2, out)
  else if ['/', '.', '/'].isPrefixOf input then (input.drop 2, out)
  else if input = ['/', '.'] then (['/'], out)
  else if ['/', '.', '.', '/'].isPrefixOf input then (input.drop 3, out.dropLast)
  else if input = ['/', '.', '.'] then (['/'], out.dropLast)
  else if input = ['.'] ∨ input = ['.', '.'] then ([], out)
  else ((firstSegment input).2, out ++ [(firstSegment input).1])

/-- The turns, of which there are no more than the input has characters. -/
def dotLoop : Nat → Text → List Text → List Text
  | 0, _, out => out
  | n + 1, input, out =>
    if input = [] then out else dotLoop n (dotStep input out).1 (dotStep input out).2

/-- `removeDotSegments`. -/
def removeDotSegments (path : Text) : Text :=
  if path.contains '.' then (dotLoop path.length path []).flatten else path

/-! ## Resolution -/

/-- The text up to and with the last slash, if there is one. -/
def directory (path : Text) : Option Text :=
  if path.contains '/' then some (path.reverse.dropWhile (· != '/')).reverse else none

/-- `merge`. -/
def merge (b : Components) (refPath : Text) : Text :=
  if b.authority.isSome ∧ b.path = [] then '/' :: refPath
  else
    match directory b.path with
    | some dir => dir ++ refPath
    | none => refPath

/-- The target of `Resolve`, in its parts. -/
def resolveComponents (b r : Components) : Components :=
  if r.scheme.isSome then { r with path := removeDotSegments r.path }
  else if r.authority.isSome then
    { r with path := removeDotSegments r.path, scheme := b.scheme }
  else if r.path = [] then
    ⟨b.scheme, b.authority, b.path, if r.query.isSome then r.query else b.query, r.fragment⟩
  else if ['/'].isPrefixOf r.path then
    ⟨b.scheme, b.authority, removeDotSegments r.path, r.query, r.fragment⟩
  else ⟨b.scheme, b.authority, removeDotSegments (merge b r.path), r.query, r.fragment⟩

/-- `Resolve`. -/
def resolve (base ref : Text) : Text :=
  if (split base).scheme.isSome then (resolveComponents (split base) (split ref)).string else ref

/-! ## References for targets -/

/-- `pathSegmentRef`. -/
def pathSegmentRef (p : Text) : Text :=
  if p = [] ∨ (spanMarks ['/'] p).1.contains ':' then '.' :: '/' :: p else p

/-- One turn over the directories of the base: the reference, if the target is below. -/
def directoryRef (path suffix dir up : Text) : List Text :=
  if dir.isPrefixOf path then [up ++ pathSegmentRef (path.drop dir.length) ++ suffix] else []

/-- The references over the directory and those above it, of which there are no more than
    the directory has characters. -/
def directoryRefs (path suffix : Text) : Nat → Text → Text → List Text
  | 0, _, _ => []
  | n + 1, dir, up =>
    directoryRef path suffix dir up ++
      match directory (if ['/'].isSuffixOf dir then dir.dropLast else dir) with
      | none => []
      | some parent => directoryRefs path suffix n parent (up ++ ['.', '.', '/'])

/-- The references that `Relativize` tries, in order. -/
def candidates (b t : Components) : List Text :=
  let suffix := marked ['?'] t.query ++ marked ['#'] t.fragment
  let same :=
    if t.path = b.path then
      [] :: ((if t.fragment.isSome then [marked ['#'] t.fragment] else []) ++ [suffix])
    else []
  let below :=
    match directory b.path with
    | none => []
    | some dir => directoryRefs t.path suffix (dir.length + 1) dir []
  let rooted :=
    if t.authority.isSome ∧ ['/'].isPrefixOf t.path ∧ ¬ ['/', '/'].isPrefixOf t.path then
      [t.path ++ suffix]
    else []
  same ++ below ++ rooted

/-- `Relativize`: the shortest reference that resolves to the target, if one is shorter. -/
def relativize (base target : Text) : Option Text :=
  let b := split base
  let t := split target
  if b.scheme.isNone ∨ t.scheme.isNone ∨ b.scheme ≠ t.scheme ∨ b.authority ≠ t.authority then none
  else
    let best := (candidates b t).foldl
      (fun best ref =>
        if ref.length < best.length ∧ resolve base ref = target then ref else best) target
    if best = target then none else some best

/-! ## The readers -/

/-- `isAbsoluteIRI` of packages `turtle` and `trig`. -/
def isAbsoluteIRI (s : Text) : Bool :=
  s.contains ':' && validScheme (spanMarks [':'] s).1

/-- `resolveIRI` of the parsers of packages `turtle` and `trig`. -/
def resolveIRI (base iri : Text) : Text :=
  if base = [] ∨ isAbsoluteIRI iri then iri else resolve base iri

end Iri

end GoRdf
