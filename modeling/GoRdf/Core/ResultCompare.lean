import GoRdf.Core.Eval
import GoRdf.Core.Number

/-!
# Comparing Results

`ResultsEqual` of package `sparql`, for results of `SELECT`. Rows are compared by texts: first
with the labels of blank nodes, then with one placeholder for all of them.

How a number is written, `NUM:%g` of its float, is a parameter.

## Main definitions

* `bindingKeyWith`: The text of a row.
* `resultsEqual`: `ResultsEqual`.
-/

namespace GoRdf

/-- The characters of a label that `normalizeBnodesInN3` passes over. -/
def isLabelByte (c : Char) : Bool :=
  (decide ('a' ≤ c) && decide (c ≤ 'z')) || (decide ('A' ≤ c) && decide (c ≤ 'Z')) || isDigit c ||
    ['_', '-', '.'].contains c

/-- The loop of `normalizeBnodesInN3`. -/
def normalizeLoop (s : List Char) : List Char :=
  match s with
  | '_' :: ':' :: cs => "_:BNODE".toList ++ normalizeLoop (cs.dropWhile isLabelByte)
  | c :: cs => c :: normalizeLoop cs
  | [] => []
termination_by s.length
decreasing_by
  · have hle := (List.dropWhile_sublist isLabelByte (l := cs)).length_le
    simp only [List.length_cons]
    omega
  · exact Nat.lt_succ_self _

/-- `normalizeBnodesInN3`. -/
def normalizeBnodesInN3 (s : List Char) : List Char :=
  if ['_', ':'] <:+: s then normalizeLoop s else s

/-- `isNumericDatatype`, of the datatype of a literal. -/
def isNumericLiteral (l : Literal) : Bool :=
  (l.datatype.bind numericKind).isSome

/-- A value as `bindingKeyWith` writes it. -/
def valueText (num : Literal → List Char) (collapseBnodes : Bool) (x : Term) : List Char :=
  let text := if collapseBnodes then normalizeBnodesInN3 x.n3 else x.n3
  match x with
  | .subject (.bnode _) => if collapseBnodes then "_:BNODE".toList else text
  | .literal l => if isNumericLiteral l then num l else text
  | _ => text

/-- `bindingKeyWith`. -/
def bindingKeyWith (num : Literal → List Char) (row : Row) (collapseBnodes : Bool) : String :=
  "|".intercalate
    (sortStrings (row.entries.map fun e =>
      e.1 ++ "=" ++ String.ofList (valueText num collapseBnodes e.2)))

/-- Every key of the first map has the same count in the second, and there are as many keys. -/
def sameCounts (a b : List String) : Bool :=
  (a.dedup.all fun k => b.count k == a.count k) && a.dedup.length == b.dedup.length

/-- `ResultsEqual`, with `resultEqualWithBnodes`. -/
def resultsEqual (num : Literal → List Char) (a b : List Row) : Bool :=
  let keys (rows : List Row) (collapseBnodes : Bool) :=
    rows.map fun row => bindingKeyWith num row collapseBnodes
  if a.length ≠ b.length then false
  else sameCounts (keys a false) (keys b false) || sameCounts (keys a true) (keys b true)

end GoRdf
