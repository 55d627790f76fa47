import GoRdf.Theory.Number
import GoRdf.Theory.Order

/-!
# When `compareTermValues` Is an Order

`ORDER BY`, `MIN` and `MAX` compare two numbers by value, two dates by the instants
they stand for, and all other pairs of literals by their N3 forms. So numbers and
dates are two islands among the N3 forms. Literals are compared in a total preorder
exactly when

* no float or double has the `float64` of two different integers or decimals, which
  are compared exactly among themselves, and
* between the N3 forms of two literals of an island no literal outside the island has
  its own, unless the island has the two in the same order.

Terms that are no literals add nothing: types are compared first, and the parts of a
triple term one after the other. So the comparison of terms is a total preorder
exactly when that of the literals in them is.

In N3 the number 10 of type `xsd:int` is before the string `15`, and that is before
the number 2, so that already these three are in a circle.

## Main definitions

* `valueIsland`, `compareIsland`: The island of a literal, and how it compares.
* `exactValue`, `floatOf`: The exact value of a number, and its `float64`.
* `TermOf.literals`: The literals in a term.

## Theorems

* `compareLiteralValues_eq_glue`: The comparison of literals is a glued one.
* `preorderOn_compareLiteralValues_iff`: When it is a total preorder.
* `compareTermValues_preorderOn_iff`: When `compareTermValues` is one.
* `compareTermValues_circle`: Three literals in a circle.
-/

namespace GoRdf

open Lib Option

variable {l : Literal}

/-! ## Islands -/

/-- Literals that are compared by value. -/
inductive ValueIsland
  | number | date
deriving DecidableEq

/-- The number of a literal, unless it is not a number. -/
def numberOf (l : Literal) : Option Numeric :=
  (numericOf l).filter fun n => n.f.isSome

/-- The island of a literal. -/
def valueIsland (time : TimeParser) (l : Literal) : Option ValueIsland :=
  if (numberOf l).isSome then some .number
  else if (dateOf time l).isSome then some .date
  else none

/-- The comparison of two literals of one island. -/
def compareIsland (time : TimeParser) (a b : Literal) : Int :=
  match numberOf a, numberOf b with
  | some x, some y => compareNumbers x y
  | _, _ =>
    match dateOf time a, dateOf time b with
    | some x, some y => threeWay x y
    | _, _ => 0

theorem numberOf_eq_some {n : Numeric} :
    numberOf l = some n ↔ numericOf l = some n ∧ n.f ≠ none := by
  unfold numberOf
  rw [filter_eq_some_iff, isSome_iff_ne_none]

/-- A number is no date. -/
theorem dateOf_eq_none_of_numericOf (time : TimeParser) {n : Numeric}
    (h : numericOf l = some n) : dateOf time l = none := by
  rcases bind_eq_some_iff.mp h with ⟨d, hd, hvalue⟩
  have hdates : ∀ d ∈ [xsd "dateTime", xsd "date", xsd "time"], numericKind d = none := by decide
  unfold dateOf
  rw [hd, bind_some, if_neg]
  intro hdate
  unfold numericValue at hvalue
  rw [hdates d (by simpa [isDateDatatype] using hdate)] at hvalue
  simp at hvalue

section

variable (time : TimeParser)

theorem valueIsland_eq_number : valueIsland time l = some .number ↔ ∃ n, numberOf l = some n := by
  unfold valueIsland
  rw [← isSome_iff_exists]
  split_ifs with h <;> simp [h]

theorem valueIsland_eq_date : valueIsland time l = some .date ↔ ∃ x, dateOf time l = some x := by
  unfold valueIsland
  rw [← isSome_iff_exists]
  split_ifs with hnumber hdate
  · rcases isSome_iff_exists.mp hnumber with ⟨n, hn⟩
    rw [dateOf_eq_none_of_numericOf time (numberOf_eq_some.mp hn).1]
    simp
  · simp [hdate]
  · simp [hdate]

/-- Numbers are glued first, then dates, and the rest by N3. -/
theorem glue_values (a b : Literal) :
    glue (valueIsland time) (compareIsland time) LiteralOf.n3 a b =
      match numberOf a, numberOf b with
      | some x, some y => compareNumbers x y
      | _, _ =>
        match dateOf time a, dateOf time b with
        | some x, some y => threeWay x y
        | _, _ => compareN3 a b := by
  have hdate : ∀ {l : Literal} {n}, numberOf l = some n → dateOf time l = none :=
    fun hn => dateOf_eq_none_of_numericOf time (numberOf_eq_some.mp hn).1
  unfold glue valueIsland compareIsland
  cases hx : numberOf a with
  | some x =>
    rw [hdate hx]
    cases numberOf b <;> cases dateOf time b <;> rfl
  | none =>
    cases hy : numberOf b with
    | some y =>
      rw [hdate hy]
      cases dateOf time a <;> rfl
    | none => cases dateOf time a <;> cases dateOf time b <;> rfl

/-- The comparison of literals is a glued one. -/
theorem compareLiteralValues_eq_glue (a b : Literal) : compareLiteralValues time a b =
    glue (valueIsland time) (compareIsland time) LiteralOf.n3 a b := by
  rw [glue_values, compareLiteralValues]
  cases hshort : compareShortNumbers a b with
  | some c =>
    rcases compareShortNumbers_eq hshort with ⟨x, y, hx, hy, hxf, hyf, rfl⟩
    rw [numberOf_eq_some.mpr ⟨hx, hxf⟩, numberOf_eq_some.mpr ⟨hy, hyf⟩]
  | none =>
    unfold numberOf
    cases hx : numericOf a with
    | none => rfl
    | some x =>
      cases hy : numericOf b with
      | none => cases (some x).filter fun n => n.f.isSome <;> rfl
      | some y =>
        -- Two numbers are no dates, so where one of them is NaN they are compared by N3.
        rw [dateOf_eq_none_of_numericOf time hx]
        cases hxf : x.f <;> cases hyf : y.f <;> simp [Option.filter, hxf, hyf]

end

/-! ## Numbers -/

/-- The exact value of an integer or a decimal. -/
def exactValue (l : Literal) : Option ℚ :=
  (numberOf l).bind fun n => if n.kind.isExact then n.exact else none

/-- The `float64` of a number. -/
def floatOf (l : Literal) : ExtRat :=
  ((numberOf l).bind Numeric.f).getD ⊥

/-- What a number is: an exact value and its float, or only a float. -/
theorem number_cases {n : Numeric} (h : numberOf l = some n) :
    (∃ v, exactValue l = some v ∧ floatOf l = binary64.round v ∧ n.kind.isExact = true ∧
      ExactNumber n v) ∨
    exactValue l = none ∧ n.kind.isExact = false ∧ n.f = some (floatOf l) := by
  rcases numberOf_eq_some.mp h with ⟨hnumeric, hf⟩
  unfold exactValue floatOf
  rw [h]
  dsimp only [bind_some]
  cases hkind : n.kind.isExact with
  | true =>
    rcases bind_eq_some_iff.mp hnumeric with ⟨d, -, hvalue⟩
    rcases exactNumber_of_numericValue hvalue hkind with ⟨v, hv⟩
    refine .inl ⟨v, by rw [if_pos rfl, hv.exact], by rw [hv.float]; rfl, rfl, hv⟩
  | false =>
    rcases ne_none_iff_exists'.mp hf with ⟨x, hx⟩
    exact .inr ⟨by simp, rfl, by rw [hx]; rfl⟩

/-- Numbers are compared by their exact values where both have one, and by their floats
    otherwise. -/
theorem compareNumbers_eq_graded {a b : Literal} {x y : Numeric} (hx : numberOf a = some x)
    (hy : numberOf b = some y) : compareNumbers x y = graded exactValue floatOf a b := by
  have hfloat : ∀ {l : Literal} {n : Numeric}, numberOf l = some n → n.f = some (floatOf l) := by
    intro l n hn
    rcases number_cases hn with ⟨v, -, hround, -, hv⟩ | ⟨-, -, hf⟩
    · rw [hv.float, hround]
    · exact hf
  have hcmp : cmpFloat x.f y.f = threeWay (floatOf a) (floatOf b) := by
    rw [hfloat hx, hfloat hy]
    rfl
  rcases number_cases hx with ⟨v, hav, -, hxkind, hv⟩ | ⟨ha, hxkind, -⟩
  · rcases number_cases hy with ⟨w, hbw, -, hykind, hw⟩ | ⟨hb, hykind, -⟩
    · rw [graded_fine hav hbw, compareNumbers_exact hv hw hxkind hykind]
    · rw [graded_coarse (.inr hb), compareNumbers_float (.inr hykind), hcmp]
  · rw [graded_coarse (.inl ha), compareNumbers_float (.inl hxkind), hcmp]

theorem floatOf_mono {a b : Literal} {v w : ℚ} (hv : exactValue a = some v)
    (hw : exactValue b = some w) (h : v ≤ w) : floatOf a ≤ floatOf b := by
  have hround : ∀ {l : Literal} {q : ℚ}, exactValue l = some q → floatOf l = binary64.round q := by
    intro l q hq
    rcases bind_eq_some_iff.mp hq with ⟨n, hn, -⟩
    rcases number_cases hn with ⟨v, hlv, hround, -, -⟩ | ⟨hnone, -, -⟩
    · rw [hround, some.inj (hlv.symm.trans hq)]
    · simp [hnone] at hq
  rw [hround hv, hround hw]
  exact FloatFormat.round_mono (by decide) h

/-! ## Literals -/

section

variable (time : TimeParser)

theorem compareIsland_swap (a b : Literal) : compareIsland time a b = -compareIsland time b a := by
  unfold compareIsland
  cases hx : numberOf a with
  | some x =>
    cases hy : numberOf b with
    | some y =>
      dsimp only
      rw [compareNumbers_eq_graded hx hy, compareNumbers_eq_graded hy hx, graded_swap]
    | none =>
      cases dateOf time a <;> cases dateOf time b <;> first | rfl | exact threeWay_swap _ _
  | none =>
    cases numberOf b <;> cases dateOf time a <;> cases dateOf time b <;>
      first | rfl | exact threeWay_swap _ _

/-- The literals of a set that are numbers. -/
def numbersIn (L : Set Literal) : Set Literal :=
  {l | l ∈ L ∧ ∃ n, numberOf l = some n}

/-- Literals are compared in a total preorder exactly when no float straddles two exact
    values and no literal comes between those of an island. -/
theorem preorderOn_compareLiteralValues_iff (L : Set Literal) :
    PreorderOn L (compareLiteralValues time) ↔
      Unstraddled (numbersIn L) exactValue floatOf ∧
        Unbroken L (valueIsland time) (compareIsland time) LiteralOf.n3 := by
  have hrefl : ∀ a ∈ L, compareIsland time a a = 0 := by
    intro a _
    have hswap := compareIsland_swap time a a
    omega
  have hswap : ∀ a ∈ L, ∀ b ∈ L,
      (compareIsland time a b).sign = -(compareIsland time b a).sign := by
    intro a _ b _
    rw [compareIsland_swap, Int.sign_neg]
  have hkey : ∀ a ∈ L, ∀ b ∈ L, a.n3 = b.n3 → valueIsland time a = valueIsland time b := by
    intro a _ b _ heq
    rw [Literal.n3_inj heq]
  rw [PreorderOn.congr fun a _ b _ => compareLiteralValues_eq_glue time a b,
    glue_preorderOn_iff hrefl hswap hkey, islandsTransitive_iff hrefl hswap]
  -- the island of numbers is a graded comparison, the one of dates is always in order
  have hnumbers : PreorderOn {a | a ∈ L ∧ valueIsland time a = some .number} (compareIsland time) ↔
      Unstraddled (numbersIn L) exactValue floatOf := by
    have hset : {a | a ∈ L ∧ valueIsland time a = some .number} = numbersIn L := by
      ext l
      exact and_congr_right fun _ => valueIsland_eq_number time
    rw [hset, ← graded_preorderOn_iff fun a _ b _ x hx y hy => floatOf_mono hx hy]
    refine PreorderOn.congr ?_
    rintro a ⟨-, x, hx⟩ b ⟨-, y, hy⟩
    rw [compareIsland, hx, hy]
    exact compareNumbers_eq_graded hx hy
  have hdates : PreorderOn {a | a ∈ L ∧ valueIsland time a = some .date} (compareIsland time) := by
    refine (PreorderOn.congr ?_).mpr (preorderOn_threeWay (fun l => (dateOf time l).getD 0) _)
    rintro a ⟨-, ha⟩ b ⟨-, hb⟩
    have hnone : numberOf a = none := by
      rw [eq_none_iff_forall_ne_some]
      intro n hn
      simp [(valueIsland_eq_number time).mpr ⟨n, hn⟩] at ha
    rcases (valueIsland_eq_date time).mp ha with ⟨x, hx⟩
    rcases (valueIsland_eq_date time).mp hb with ⟨y, hy⟩
    rw [compareIsland, hnone, hx, hy]
    rfl
  constructor
  · rintro ⟨hislands, hunbroken⟩
    exact ⟨hnumbers.mp (hislands .number), hunbroken⟩
  · rintro ⟨hstraddle, hunbroken⟩
    refine ⟨?_, hunbroken⟩
    intro i
    cases i with
    | number => exact hnumbers.mpr hstraddle
    | date => exact hdates

end

/-! ## Terms -/

mutual

/-- The literals in a subject. -/
def SubjectOf.literals {ok : Char → Bool} : SubjectOf ok → List (LiteralOf ok)
  | .uri _ => []
  | .bnode _ => []
  | .triple s _ o => s.literals ++ o.literals

/-- The literals in a term. -/
def TermOf.literals {ok : Char → Bool} : TermOf ok → List (LiteralOf ok)
  | .subject s => s.literals
  | .literal l => [l]

end

mutual

/-- How deep triple terms are nested in a subject. -/
def SubjectOf.depth {ok : Char → Bool} : SubjectOf ok → Nat
  | .uri _ => 0
  | .bnode _ => 0
  | .triple s _ o => max s.depth o.depth + 1

/-- How deep triple terms are nested in a term. -/
def TermOf.depth {ok : Char → Bool} : TermOf ok → Nat
  | .subject s => s.depth
  | .literal _ => 0

end

section

variable (time : TimeParser) (L : Set Literal)

/-- Terms with literals of a set. -/
def termsOver : Set Term :=
  {t | ∀ l ∈ t.literals, l ∈ L}

/-- Types are compared first. -/
theorem compareValues_eq_ranked (a b : Term) : compareValues time a b =
    ranked TermOf.typeOrder (fun a b => a.typeOrder - b.typeOrder) (compareValues time) a b := by
  unfold ranked
  split_ifs with h
  · rfl
  · rcases a with (_ | _ | _) | _ <;> rcases b with (_ | _ | _) | _ <;>
      first | exact absurd rfl h | simp only [compareValues, compareSubjectValues]

/-- Triple terms are compared part by part. -/
theorem compareValues_triple (x y : Subject × URIRef × Term) :
    compareValues time (.subject (.triple x.1 x.2.1 x.2.2)) (.subject (.triple y.1 y.2.1 y.2.2)) =
      lexically (fun x y : Subject × URIRef × Term =>
          compareValues time (.subject x.1) (.subject y.1))
        (lexically (fun x y => threeWay x.2.1.value.toList y.2.1.value.toList)
          fun x y => compareValues time x.2.2 y.2.2) x y := by
  simp only [compareValues, compareSubjectValues, lexically]

variable {L} {time}

/-- Where literals are compared in a total preorder, so are terms of any depth. -/
theorem preorderOn_compareValues_depth (h : PreorderOn L (compareLiteralValues time)) (n : Nat) :
    PreorderOn {t | t ∈ termsOver L ∧ t.depth < n} (compareValues time) := by
  induction n with
  | zero =>
    have hnone : ∀ {a : Term} {P : Prop}, a ∈ {t | t ∈ termsOver L ∧ t.depth < 0} → P :=
      fun ha => absurd ha.2 (Nat.not_lt_zero _)
    exact ⟨fun _ ha => hnone ha, fun _ ha => hnone ha, fun _ ha => hnone ha⟩
  | succ n ih =>
    rw [PreorderOn.congr fun a _ b _ => compareValues_eq_ranked time a b,
      ranked_preorderOn_iff fun a b => rfl]
    intro r
    -- the terms of a type are what one constructor gives
    by_cases hblank : r = 0
    · refine PreorderOn.image (f := fun b => .subject (.bnode b)) (T := Set.univ) ?_ ?_
      · rintro ((u | b | ⟨s, p, o⟩) | l) ⟨-, hr⟩ <;> simp [TermOf.typeOrder, hblank] at hr
        exact ⟨b, trivial, rfl⟩
      · simp only [compareValues, compareSubjectValues]
        exact preorderOn_threeWay (fun b => (SubjectOf.bnode b : Subject).n3) _
    by_cases hiri : r = 1
    · refine PreorderOn.image (f := fun u => .subject (.uri u)) (T := Set.univ) ?_ ?_
      · rintro ((u | b | ⟨s, p, o⟩) | l) ⟨-, hr⟩ <;> simp [TermOf.typeOrder, hiri] at hr
        exact ⟨u, trivial, rfl⟩
      · simp only [compareValues, compareSubjectValues]
        exact preorderOn_threeWay (fun u : URIRef => u.value.toList) _
    by_cases hliteral : r = 2
    · refine PreorderOn.image (f := TermOf.literal) (T := L) ?_ ?_
      · rintro ((u | b | ⟨s, p, o⟩) | l) ⟨ht, hr⟩ <;> simp [TermOf.typeOrder, hliteral] at hr
        exact ⟨l, ht.1 l (by simp [TermOf.literals]), rfl⟩
      · simp only [compareValues]
        exact h
    · generalize hT : {t | t ∈ termsOver L ∧ t.depth < n} = T at ih
      refine PreorderOn.image
        (f := fun x : Subject × URIRef × Term => .subject (.triple x.1 x.2.1 x.2.2))
        (T := {x | TermOf.subject x.1 ∈ T ∧ x.2.2 ∈ T}) ?_ ?_
      · rintro ((u | b | ⟨s, p, o⟩) | l) ⟨⟨hlits, hdepth⟩, hr⟩
        · exact absurd hr.symm hiri
        · exact absurd hr.symm hblank
        · have hlt : max s.depth o.depth < n := by
            simpa [TermOf.depth, SubjectOf.depth] using hdepth
          have hmem : ∀ {l}, l ∈ s.literals ∨ l ∈ o.literals → l ∈ L := fun {l} hl =>
            hlits l (List.mem_append.mpr hl)
          rw [← hT]
          exact ⟨(s, p, o), ⟨⟨fun l hl => hmem (.inl hl), (le_max_left _ _).trans_lt hlt⟩,
            fun l hl => hmem (.inr hl), (le_max_right _ _).trans_lt hlt⟩, rfl⟩
        · exact absurd hr.symm hliteral
      · simp only [compareValues_triple]
        refine (ih.comap fun x hx => hx.1).lexically fun _ _ => ?_
        exact (preorderOn_threeWay _ _).lexically fun _ _ => ih.comap fun x hx => hx.1.1.2

theorem preorderOn_compareValues (h : PreorderOn L (compareLiteralValues time)) :
    PreorderOn (termsOver L) (compareValues time) := by
  -- three terms have a common bound on their depths
  have hdeep := preorderOn_compareValues_depth h
  constructor
  · intro a ha
    exact (hdeep (a.depth + 1)).refl a ⟨ha, by omega⟩
  · intro a ha b hb
    exact (hdeep (a.depth + b.depth + 1)).swap a ⟨ha, by omega⟩ b ⟨hb, by omega⟩
  · intro a ha b hb c hc
    exact (hdeep (a.depth + b.depth + c.depth + 1)).trans a ⟨ha, by omega⟩ b ⟨hb, by omega⟩
      c ⟨hc, by omega⟩

variable (L) (time)

/-- What has no value comes first. -/
theorem compareTermValues_eq_ranked (a b : Option Term) : compareTermValues time a b =
    ranked (fun t => if t.isSome then 1 else 0)
      (fun a b => (if a.isSome then 1 else 0) - if b.isSome then 1 else 0)
      (compareTermValues time) a b := by
  cases a <;> cases b <;> rfl

/-- `compareTermValues` is a total preorder on the terms over a set of literals exactly
    when no float of the set straddles two exact values, and no literal of it comes
    between those of an island. -/
theorem compareTermValues_preorderOn_iff :
    PreorderOn {t | ∀ u ∈ t, u ∈ termsOver L} (compareTermValues time) ↔
      Unstraddled (numbersIn L) exactValue floatOf ∧
        Unbroken L (valueIsland time) (compareIsland time) LiteralOf.n3 := by
  rw [← preorderOn_compareLiteralValues_iff]
  constructor
  · intro h
    have hmem : ∀ l ∈ L, some (TermOf.literal l) ∈ {t | ∀ u ∈ t, u ∈ termsOver L} := by
      intro l hl u hu l' hl'
      rw [← some.inj hu, TermOf.literals, List.mem_singleton] at hl'
      exact hl' ▸ hl
    have hlit := h.comap hmem
    simpa only [compareTermValues, compareValues] using hlit
  · intro h
    rw [PreorderOn.congr fun a _ b _ => compareTermValues_eq_ranked time a b,
      ranked_preorderOn_iff fun a b => rfl]
    intro r
    -- Terms have one rank, and the unbound value another.
    by_cases hr : r = 1
    · refine PreorderOn.image (f := some) (T := termsOver L) ?_ (preorderOn_compareValues h)
      rintro (_ | t) ⟨ht, hrank⟩
      · simp [hr] at hrank
      · exact ⟨t, ht t rfl, rfl⟩
    · refine PreorderOn.image (f := fun _ : Unit => none) (T := Set.univ) ?_
        (preorderOn_threeWay (fun _ => 0) _)
      rintro (_ | t) ⟨-, hrank⟩
      · exact ⟨(), trivial, rfl⟩
      · exact absurd hrank.symm hr

end

/-- A parser that takes no text for a date. -/
def noTime : TimeParser :=
  fun _ _ => none

/-- Three literals in a circle: by N3, by N3 and by value. -/
theorem compareTermValues_circle :
    let two := some (typed "2" (xsd "int") (by decide) (by decide))
    let ten := some (typed "10" (xsd "int") (by decide) (by decide))
    let fifteen := some (typed "15" xsdString (by decide) (by decide))
    compareTermValues noTime ten fifteen < 0 ∧ compareTermValues noTime fifteen two < 0 ∧
      compareTermValues noTime two ten < 0 ∧
      ¬ PreorderOn Set.univ (compareTermValues noTime) := by
  refine ⟨by decide +kernel, by decide +kernel, by decide +kernel, fun h => ?_⟩
  have hle := h.trans (some (typed "10" (xsd "int") (by decide) (by decide))) trivial
    (some (typed "15" xsdString (by decide) (by decide))) trivial
    (some (typed "2" (xsd "int") (by decide) (by decide))) trivial (by decide +kernel)
    (by decide +kernel)
  exact absurd hle (by decide +kernel)

end GoRdf
