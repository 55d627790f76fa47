import GoRdf.Core.Order
import GoRdf.Theory.TermKey

/-!
# When `CompareTerm` Is an Order

`CompareTerm` compares two literals of one numeric datatype by their values, and
everything else of one type by its N3 form. So the numbers of a datatype are an
island among the N3 forms. It is a total order on a set of terms exactly when

* no two different numbers of one datatype in it have the same value, and
* between the N3 forms of two numbers of one datatype no literal of another kind
  has its own, unless their values are in the same order.

Written in N3, `10` is before `15.0` and that is before `2`, so that already these
three numbers are in a circle.

The N3 forms tell terms apart only if no IRI and no label has a character in it that
N3 sets off names with.

## Main definitions

* `TextsDiffer`, `ValuesDiffer`: Different N3 forms, and different values.
* `orderValue`, `orderIsland`: The value a literal is compared by, and its island.
* `compareOrderValues`: The comparison of two values.

## Theorems

* `compareLiterals_eq_glue`: The comparison of literals is a glued one.
* `compareTerm_totalOrderOn_iff`: When `CompareTerm` is a total order.
* `compareTerm_circle`: Three numbers in a circle.
-/

namespace GoRdf

open Lib

variable {ok : Char → Bool}

/-! ## Literals -/

/-- What a literal is compared by. -/
inductive OrderValue
  | int (i : Int)
  | float (f : Float64)

/-- The value a literal is compared by, if it is a number of its datatype. -/
def orderValue (l : LiteralOf ok) : Option OrderValue :=
  match l.datatype with
  | none => none
  | some d =>
    if d ∈ integerOrdered then (parseInt64 l.lexical.toList).map .int
    else if d ∈ floatOrdered then (floatValue l.lexical.toList).map .float
    else none

/-- The datatype, of a number. -/
def orderIsland (l : LiteralOf ok) : Option String :=
  if (orderValue l).isSome then l.datatype else none

/-- The comparison of two values. -/
def compareOrderValues : Option OrderValue → Option OrderValue → Int
  | some (.int x), some (.int y) => threeWay x y
  | some (.float x), some (.float y) => cmpFloat x y
  | _, _ => 0

/-- The comparison of two numbers of one datatype. -/
def compareNumbersOf (a b : LiteralOf ok) : Int :=
  compareOrderValues (orderValue a) (orderValue b)

theorem cmpFloat_swap (x y : Float64) : cmpFloat x y = -cmpFloat y x := by
  cases x with
  | none =>
    cases y <;> rfl
  | some x =>
    cases y with
    | none => rfl
    | some y => exact threeWay_swap x y

theorem compareOrderValues_swap (x y : Option OrderValue) :
    compareOrderValues x y = -compareOrderValues y x := by
  rcases x with _ | ⟨i⟩ | ⟨f⟩ <;> rcases y with _ | ⟨j⟩ | ⟨f'⟩ <;> first
    | rfl
    | exact threeWay_swap _ _
    | exact cmpFloat_swap _ _

/-- The comparison of literals is a glued one. -/
theorem compareLiterals_eq_glue (a b : LiteralOf ok) :
    compareLiterals a b = glue orderIsland compareNumbersOf LiteralOf.n3 a b := by
  unfold compareLiterals glue compareNumbersOf
  by_cases hdt : a.datatype = b.datatype
  · -- one datatype, so that both are on one island exactly when both are numbers
    unfold orderIsland orderValue
    rw [if_pos hdt, ← hdt]
    cases a.datatype with
    | none => rfl
    | some d =>
      by_cases hint : d ∈ integerOrdered
      · simp only [if_pos hint]
        cases parseInt64 a.lexical.toList <;> cases parseInt64 b.lexical.toList <;>
          simp [compareOrderValues, compareN3]
      · by_cases hfloat : d ∈ floatOrdered
        · simp only [if_neg hint, if_pos hfloat]
          cases floatValue a.lexical.toList <;> cases floatValue b.lexical.toList <;>
            simp [compareOrderValues, compareN3]
        · simp [hint, hfloat, compareN3]
  · rw [if_neg hdt, if_neg, compareN3]
    rintro ⟨heq, hsome⟩
    obtain ⟨d, hd⟩ := Option.isSome_iff_exists.mp hsome
    have hdatatype : ∀ {l : LiteralOf ok}, orderIsland l = some d → l.datatype = some d := by
      intro l hl
      unfold orderIsland at hl
      split_ifs at hl
      exact hl
    exact hdt ((hdatatype hd).trans (hdatatype (heq ▸ hd)).symm)

/-! ## Terms -/

/-- No two numbers of one datatype have the same value. -/
def ValuesDiffer (L : Set (LiteralOf ok)) : Prop :=
  ∀ a ∈ L, ∀ b ∈ L, orderIsland a = orderIsland b → (orderIsland a).isSome = true →
    compareNumbersOf a b = 0 → a = b

/-- Terms of one type that are compared by their N3 forms have different ones. -/
structure TextsDiffer (S : Set (TermOf ok)) : Prop where
  subject : ∀ s s' : SubjectOf ok, .subject s ∈ S → .subject s' ∈ S →
    (TermOf.subject s).typeOrder = (TermOf.subject s').typeOrder → s.n3 = s'.n3 → s = s'
  literal : ∀ l l' : LiteralOf ok, .literal l ∈ S → .literal l' ∈ S →
    ¬ (orderIsland l = orderIsland l' ∧ (orderIsland l).isSome = true) → l.n3 = l'.n3 → l = l'

theorem Literal.n3_inj {a b : Literal} (h : a.n3 = b.n3) : a = b :=
  TermOf.literal.inj (Term.n3_inj.mp h)

/-- Values that do not compare equal are of one kind, and in order. -/
theorem compareOrderValues_trans {x y z : Option OrderValue} (hxy : compareOrderValues x y < 0)
    (hyz : compareOrderValues y z < 0) : compareOrderValues x z ≤ 0 := by
  have hfloat : ∀ {f f' f'' : Float64}, cmpFloat f f' < 0 → cmpFloat f' f'' < 0 →
      cmpFloat f f'' ≤ 0 := by
    intro f f' f'' hlt₁ hlt₂
    -- NaN is less than nothing, and nothing is less than NaN
    cases f <;> cases f' <;> cases f'' <;> first
      | exact threeWay_le.mpr ((threeWay_lt.mp hlt₁).trans (threeWay_lt.mp hlt₂)).le
      | simp [cmpFloat] at hlt₁ hlt₂
  rcases x with _ | ⟨i⟩ | ⟨f⟩ <;> rcases y with _ | ⟨j⟩ | ⟨f'⟩ <;>
    rcases z with _ | ⟨k⟩ | ⟨f''⟩ <;> first
      | exact threeWay_le.mpr ((threeWay_lt.mp hxy).trans (threeWay_lt.mp hyz)).le
      | exact hfloat hxy hyz
      | simp [compareOrderValues] at hxy hyz

/-- Where values differ, the numbers of a datatype are in order. -/
theorem islandsTransitive_of_valuesDiffer {L : Set (LiteralOf ok)} (h : ValuesDiffer L) :
    IslandsTransitive L orderIsland compareNumbersOf := by
  intro a ha b hb c hc hab hbc hsome hle₁ hle₂
  have hsomeb : (orderIsland b).isSome = true := hab ▸ hsome
  by_cases heq₁ : compareNumbersOf a b = 0
  · rw [h a ha b hb hab hsome heq₁]
    exact hle₂
  · by_cases heq₂ : compareNumbersOf b c = 0
    · rw [← h b hb c hc hbc hsomeb heq₂]
      exact hle₁
    · exact compareOrderValues_trans (lt_of_le_of_ne hle₁ heq₁) (lt_of_le_of_ne hle₂ heq₂)

/-- The comparison of two terms of one type. -/
def compareSameType : TermOf ok → TermOf ok → Int
  | .literal a, .literal b => compareLiterals a b
  | a, b => threeWay a.n3 b.n3

theorem compareTerm_eq_ranked (a b : TermOf ok) : compareTerm a b =
    ranked TermOf.typeOrder (fun a b => threeWay a.typeOrder b.typeOrder) compareSameType a b := by
  unfold compareTerm ranked
  by_cases h : a.typeOrder = b.typeOrder
  · rw [if_neg (not_not.mpr h), if_pos h]
    cases a <;> cases b <;> rfl
  · rw [if_pos h, if_neg h]
    show _ = threeWay a.typeOrder b.typeOrder
    unfold threeWay
    by_cases hlt : a.typeOrder < b.typeOrder
    · rw [if_pos hlt, if_pos hlt]
    · have hgt : b.typeOrder < a.typeOrder := by omega
      rw [if_neg hlt, if_neg hlt, if_pos hgt]

theorem threeWay_sign (x y : Int) : (threeWay x y).sign = (x - y).sign := by
  unfold threeWay
  split_ifs with hlt hgt
  · rw [Int.sign_eq_neg_one_of_neg (by omega : x - y < 0)]
    rfl
  · rw [Int.sign_eq_one_of_pos (by omega : 0 < x - y)]
    rfl
  · rw [show x - y = 0 by omega]

section

variable {S : Set (TermOf ok)}

theorem preorderOn_compareLiterals_iff (hS : TextsDiffer S) :
    PreorderOn {l | TermOf.literal l ∈ S} (fun a b => compareLiterals a b) ↔
      IslandsTransitive {l | TermOf.literal l ∈ S} orderIsland compareNumbersOf ∧
        Unbroken {l | TermOf.literal l ∈ S} orderIsland compareNumbersOf LiteralOf.n3 := by
  rw [PreorderOn.congr fun a _ b _ => compareLiterals_eq_glue a b]
  refine glue_preorderOn_iff ?_ ?_ ?_
  · intro a _
    have hswap := compareOrderValues_swap (orderValue a) (orderValue a)
    rw [compareNumbersOf]
    omega
  · intro a _ b _
    rw [compareNumbersOf, compareOrderValues_swap, Int.sign_neg]
    rfl
  · intro a ha b hb hkey
    by_contra hne
    exact hne (congrArg orderIsland (hS.literal a b ha hb (fun h => hne h.1) hkey))

/-- `CompareTerm` is a total preorder exactly when it is one on the literals. -/
theorem preorderOn_compareTerm_iff : PreorderOn S compareTerm ↔
    PreorderOn {l | TermOf.literal l ∈ S} (fun a b => compareLiterals a b) := by
  rw [PreorderOn.congr fun a _ b _ => compareTerm_eq_ranked a b,
    ranked_preorderOn_iff fun a b => threeWay_sign a.typeOrder b.typeOrder]
  constructor
  · intro h
    have hmem : ∀ l ∈ {l : LiteralOf ok | TermOf.literal l ∈ S},
        TermOf.literal l ∈ {t | t ∈ S ∧ TermOf.typeOrder t = 2} := fun l hl => ⟨hl, rfl⟩
    have hlit := (h 2).comap hmem
    exact hlit
  · intro h r
    by_cases hr : r = 2
    · -- terms of this type are literals
      refine PreorderOn.image (f := TermOf.literal) (T := {l | TermOf.literal l ∈ S}) ?_ h
      rintro (s | l) ⟨ht, hrank⟩
      · rw [hr] at hrank
        cases s <;> simp [TermOf.typeOrder] at hrank
      · exact ⟨l, ht, rfl⟩
    · -- terms of other types are compared by their N3 forms
      refine (PreorderOn.congr ?_).mpr (preorderOn_threeWay TermOf.n3 _)
      rintro a ⟨-, hra⟩ b -
      cases a with
      | subject s => rfl
      | literal l => exact absurd hra.symm hr

/-- Terms that are compared by their N3 forms are told apart by a total order. -/
theorem textsDiffer_of_totalOrderOn (h : TotalOrderOn S compareTerm) : TextsDiffer S where
  subject s s' hs hs' htype htext := by
    have hcmp : compareTerm (.subject s) (.subject s') = 0 := by
      rw [compareTerm_eq_ranked, ranked, if_pos htype]
      exact threeWay_eq.mpr htext
    exact TermOf.subject.inj (h.eq _ hs _ hs' hcmp)
  literal l l' hl hl' hislands htext := by
    have hcmp : compareTerm (.literal l) (.literal l') = 0 := by
      show compareLiterals l l' = 0
      rw [compareLiterals_eq_glue]
      unfold glue
      rw [if_neg hislands]
      exact threeWay_eq.mpr htext
    exact TermOf.literal.inj (h.eq _ hl _ hl' hcmp)

/-- `CompareTerm` is a total order on a set of terms exactly when what it compares by N3
    has different N3 forms, different numbers of one datatype have different values, and no
    other N3 form comes between them. -/
theorem compareTerm_totalOrderOn_iff :
    TotalOrderOn S compareTerm ↔
      TextsDiffer S ∧ ValuesDiffer {l | TermOf.literal l ∈ S} ∧
        Unbroken {l | TermOf.literal l ∈ S} orderIsland compareNumbersOf LiteralOf.n3 := by
  constructor
  · intro h
    have htexts := textsDiffer_of_totalOrderOn h
    have hpre := preorderOn_compareTerm_iff.mp h.toPreorderOn
    refine ⟨htexts, ?_, ((preorderOn_compareLiterals_iff htexts).mp hpre).2⟩
    intro a ha b hb hisland hsome hzero
    have hcmp : compareTerm (.literal a : TermOf ok) (.literal b) = 0 := by
      show compareLiterals a b = 0
      rw [compareLiterals_eq_glue, glue_inner hisland hsome]
      exact hzero
    exact TermOf.literal.inj (h.eq _ ha _ hb hcmp)
  · rintro ⟨htexts, hdiffer, hunbroken⟩
    have hpre := preorderOn_compareTerm_iff.mpr ((preorderOn_compareLiterals_iff htexts).mpr
      ⟨islandsTransitive_of_valuesDiffer hdiffer, hunbroken⟩)
    refine ⟨hpre, ?_⟩
    intro a ha b hb hzero
    rw [compareTerm_eq_ranked] at hzero
    unfold ranked at hzero
    -- Terms of different kinds are never equal in the order, so the kinds agree.
    by_cases hrank : a.typeOrder = b.typeOrder
    · rw [if_pos hrank] at hzero
      rcases a with s | l
      · rcases b with s' | l'
        · rw [htexts.subject s s' ha hb hrank (threeWay_eq.mp hzero)]
        · cases s <;> simp [TermOf.typeOrder] at hrank
      · rcases b with s' | l'
        · cases s' <;> simp [TermOf.typeOrder] at hrank
        · have hzero : compareLiterals l l' = 0 := hzero
          rw [compareLiterals_eq_glue] at hzero
          unfold glue at hzero
          split_ifs at hzero with hisland
          · rw [hdiffer l ha l' hb hisland.1 hisland.2 hzero]
          · rw [htexts.literal l l' ha hb hisland (threeWay_eq.mp hzero)]
    · rw [if_neg hrank, threeWay_eq] at hzero
      exact absurd hzero hrank

end

/-- A literal of a datatype. -/
def typed (lexical datatype : String) (valid : datatype.toList.all iriChar = true)
    (named : datatype ≠ "") : Term :=
  .literal ⟨lexical, .typed ⟨datatype, valid⟩ fun _ => named⟩

/-- Three numbers in a circle: by N3, by N3 and by value. -/
theorem compareTerm_circle :
    let two := typed "2" xsdInteger (by decide) (by decide)
    let ten := typed "10" xsdInteger (by decide) (by decide)
    let fifteen := typed "15.0" xsdDecimal (by decide) (by decide)
    compareTerm ten fifteen < 0 ∧ compareTerm fifteen two < 0 ∧ compareTerm two ten < 0 ∧
      ¬ TotalOrderOn Set.univ (compareTerm : Term → Term → Int) := by
  refine ⟨by decide +kernel, by decide +kernel, by decide +kernel, fun h => ?_⟩
  have hle := h.trans (typed "10" xsdInteger (by decide) (by decide)) trivial
    (typed "15.0" xsdDecimal (by decide) (by decide)) trivial
    (typed "2" xsdInteger (by decide) (by decide)) trivial (by decide +kernel) (by decide +kernel)
  exact absurd hle (by decide +kernel)

end GoRdf
