import Mathlib.Order.FixedPoints
import Mathlib.Order.CompletePartialOrder
import GoRdf.Core.Decode
import GoRdf.Core.Srl

/-!
# The Stratified Model of a Rule Set

What shape rules mean, over terms and without reference to how they are run. A
body is read from left to right: a pattern extends the substitution by what it
takes to match a known triple, and a `NOT` asks that its body has no match under
the substitution so far. Within a stratum positive patterns are read off the set
that is being closed and `NOT` off what the strata below have given, so each
stratum is a least fixed point.

## Main definitions

* `GroundTerm`, `GroundTriple`: Terms and triples without variables.
* `Matches`: A pattern matches a triple.
* `BodyHolds`, `Derives`: A body is satisfied, a rule derives a triple.
* `consequences`, `stratumModel`: What one stratum gives.
* `Stratified`: Strata that respect what can match what.
* `perfectModel`: What all strata give.

## Theorems

* `BodyHolds.mono`: More triples satisfy more.
* `stratumModel_eq_iterate`: A stratum is found in finitely many rounds if they close.
-/

namespace GoRdf

/-! ## Ground terms -/

/-- A term without variables: an IRI, a blank node, or a literal with a datatype or a
    language tag. -/
inductive GroundTerm
  | iri (value : String)
  | blank (value : String)
  | typed (value datatype : String) (named : ¬ datatype = "")
  | tagged (value language : String) (named : ¬ language = "")
deriving DecidableEq

/-- A triple of ground terms. -/
structure GroundTriple where
  s : GroundTerm
  p : GroundTerm
  o : GroundTerm
deriving DecidableEq

/-- `strings.ToLower` of a language tag. Tags are compared without regard to case, and
    `WithLang` keeps them in this form. -/
def lowerTag (lang : String) : String :=
  String.ofList (lang.toList.map asciiLower)

theorem lowerTag_ne {lang : String} (h : lang ≠ "") : lowerTag lang ≠ "" := by
  intro hempty
  rw [lowerTag, String.ofList_eq_empty_iff, List.map_eq_nil_iff] at hempty
  exact h (String.toList_eq_nil_iff.mp hempty)

/-- The ground term a constant of a rule stands for. -/
def SrlTerm.ground : SrlTerm → Option GroundTerm
  | .iri v => some (.iri v)
  | .blank v => some (.blank v)
  | .literal v dt lang =>
    if hlang : lang ≠ "" then some (.tagged v (lowerTag lang) (lowerTag_ne hlang))
    else if hdt : dt ≠ "" then some (.typed v dt hdt)
    else none
  | .var _ => none
  | .triple _ _ _ => none

/-- A partial assignment of ground terms to variables. -/
abbrev Subst := String → Option GroundTerm

/-- The value of a term under a substitution. -/
def SrlTerm.value (σ : Subst) : SrlTerm → Option GroundTerm
  | .var v => σ v
  | t => t.ground

/-- The value of a triple. -/
def SrlTriple.value (σ : Subst) (t : SrlTriple) : Option GroundTriple := do
  let s ← t.subject.value σ
  let p ← t.predicate.value σ
  let o ← t.object.value σ
  return ⟨s, p, o⟩

theorem SrlTriple.value_eq_some {σ : Subst} {t : SrlTriple} {g : GroundTriple} :
    t.value σ = some g ↔ t.subject.value σ = some g.s ∧ t.predicate.value σ = some g.p ∧
      t.object.value σ = some g.o := by
  obtain ⟨s, p, o⟩ := g
  rw [SrlTriple.value]
  cases t.subject.value σ <;> cases t.predicate.value σ <;> cases t.object.value σ <;> simp

/-- The variables of a triple pattern. -/
def SrlTriple.Mentions (t : SrlTriple) (v : String) : Prop :=
  t.subject = .var v ∨ t.predicate = .var v ∨ t.object = .var v

/-! ## Bodies -/

/-- The pattern matches the triple: the substitution is extended to the pattern's
    variables such that the pattern becomes the triple. -/
structure Matches (t : SrlTriple) (g : GroundTriple) (σ σ' : Subst) : Prop where
  keeps : ∀ v x, σ v = some x → σ' v = some x
  value : t.value σ' = some g
  only : ∀ v, σ v = none → ¬ t.Mentions v → σ' v = none

mutual

/-- One element of a body, with patterns read off `I` and negated ones off `J`. -/
def ElementHolds (I J : Set GroundTriple) : SrlBodyElement → Subst → Subst → Prop
  | .triple t, σ, σ' => ∃ g ∈ I, Matches t g σ σ'
  | .not body, σ, σ' => σ' = σ ∧ ∀ τ, ¬ BodyHolds J J body σ τ
  | .filter _, _, _ => False
  | .bind _ _, _, _ => False

/-- A body, from left to right. -/
def BodyHolds (I J : Set GroundTriple) : List SrlBodyElement → Subst → Subst → Prop
  | [], σ, σ' => σ' = σ
  | elem :: elements, σ, σ' => ∃ τ, ElementHolds I J elem σ τ ∧ BodyHolds I J elements τ σ'

end

/-- The rule derives the triple. -/
def Derives (I J : Set GroundTriple) (rule : SrlRule) (g : GroundTriple) : Prop :=
  ∃ σ, BodyHolds I J rule.body (fun _ => none) σ ∧ ∃ h ∈ rule.head, h.value σ = some g

theorem ElementHolds.mono {I I' J : Set GroundTriple} (h : I ⊆ I') {elem : SrlBodyElement}
    {σ σ' : Subst} (helem : ElementHolds I J elem σ σ') : ElementHolds I' J elem σ σ' := by
  cases elem with
  | triple t =>
    obtain ⟨g, hg, hmatch⟩ := helem
    exact ⟨g, h hg, hmatch⟩
  | filter expr =>
    exact helem.elim
  | not body =>
    exact helem
  | bind expr v =>
    exact helem.elim

/-- More triples satisfy more. -/
theorem BodyHolds.mono {I I' J : Set GroundTriple} (h : I ⊆ I') {body : List SrlBodyElement}
    {σ σ' : Subst} (hbody : BodyHolds I J body σ σ') : BodyHolds I' J body σ σ' := by
  induction body generalizing σ with
  | nil =>
    exact hbody
  | cons elem body ih =>
    obtain ⟨τ, helem, hrest⟩ := hbody
    exact ⟨τ, helem.mono h, ih hrest⟩

/-! ## Models -/

/-- What the rules of a stratum give over what is below it. -/
def consequences (rules : List SrlRule) (B : Set GroundTriple) :
    Set GroundTriple →o Set GroundTriple where
  toFun X := B ∪ {g | ∃ rule ∈ rules, Derives X B rule g}
  monotone' := by
    intro X Y hXY g hg
    rcases hg with hg | ⟨rule, hrule, σ, hbody, hhead⟩
    · exact .inl hg
    · exact .inr ⟨rule, hrule, σ, hbody.mono hXY, hhead⟩

/-- The least set that is closed under the rules of a stratum. -/
def stratumModel (rules : List SrlRule) (B : Set GroundTriple) : Set GroundTriple :=
  (consequences rules B).lfp

theorem subset_consequences (rules : List SrlRule) (B X : Set GroundTriple) :
    B ⊆ consequences rules B X :=
  Set.subset_union_left

/-- What the first rounds give is in the model. -/
theorem iterate_subset_stratumModel (rules : List SrlRule) (B : Set GroundTriple) (k : Nat) :
    (consequences rules B)^[k] B ⊆ stratumModel rules B := by
  have hfix : consequences rules B (stratumModel rules B) = stratumModel rules B :=
    OrderHom.map_lfp _
  induction k with
  | zero =>
    rw [← hfix]
    exact subset_consequences rules B _
  | succ k ih =>
    rw [Function.iterate_succ_apply', ← hfix]
    exact (consequences rules B).monotone ih

/-- Rounds that end in a closed set give the model. -/
theorem stratumModel_eq_iterate {rules : List SrlRule} {B : Set GroundTriple} {k : Nat}
    (h : consequences rules B ((consequences rules B)^[k] B) ⊆ (consequences rules B)^[k] B) :
    stratumModel rules B = (consequences rules B)^[k] B :=
  (OrderHom.lfp_le _ h).antisymm (iterate_subset_stratumModel rules B k)

/-! ## Strata -/

/-- Some triple is an instance of both patterns. -/
def SrlTriple.Meets (h t : SrlTriple) : Prop :=
  ∃ g σ τ, h.value σ = some g ∧ t.value τ = some g

mutual

/-- The patterns inside an element. -/
def SrlBodyElement.patterns : SrlBodyElement → List SrlTriple
  | .triple t => [t]
  | .not body => bodyPatterns body
  | .filter _ => []
  | .bind _ _ => []

/-- All patterns of a body, at any depth. -/
def bodyPatterns : List SrlBodyElement → List SrlTriple
  | [] => []
  | elem :: body => elem.patterns ++ bodyPatterns body

end

/-- The patterns of a body that are not negated. -/
def positivePatterns (body : List SrlBodyElement) : List SrlTriple :=
  body.flatMap fun elem =>
    match elem with
    | .triple t => [t]
    | _ => []

/-- The patterns of a body that are negated, at any depth. -/
def negatedPatterns (body : List SrlBodyElement) : List SrlTriple :=
  body.flatMap fun elem =>
    match elem with
    | .not body => bodyPatterns body
    | _ => []

/-- The strata partition the rules; what a rule derives can match patterns of rules of its
    own and higher strata only, and negated patterns only of higher ones. -/
structure Stratified (rules : List SrlRule) (strata : List (List (Fin rules.length))) :
    Prop where
  partition : strata.flatten.Perm (List.finRange rules.length)
  positive : ∀ a b s t, a ∈ strata.getD s [] → b ∈ strata.getD t [] →
    ∀ h ∈ (rules.get a).head, ∀ p ∈ positivePatterns (rules.get b).body, h.Meets p → s ≤ t
  negative : ∀ a b s t, a ∈ strata.getD s [] → b ∈ strata.getD t [] →
    ∀ h ∈ (rules.get a).head, ∀ p ∈ negatedPatterns (rules.get b).body, h.Meets p → s < t

/-- What the strata give, each over the completed ones below it. -/
def perfectModel (rules : List SrlRule) (strata : List (List (Fin rules.length)))
    (B : Set GroundTriple) : Set GroundTriple :=
  strata.foldl (fun B stratum => stratumModel (stratum.map rules.get) B) B

/-- A property that the rules pass on holds in the model. -/
theorem perfectModel_subset {rules : List SrlRule} (strata : List (List (Fin rules.length)))
    {B W : Set GroundTriple} (hB : B ⊆ W)
    (hW : ∀ rule ∈ rules, ∀ J g, Derives W J rule g → g ∈ W) :
    perfectModel rules strata B ⊆ W := by
  induction strata generalizing B with
  | nil => exact hB
  | cons stratum strata ih =>
    refine ih (OrderHom.lfp_le _ ?_)
    rintro g (hg | ⟨rule, hrule, hg⟩)
    · exact hB hg
    · obtain ⟨i, -, rfl⟩ := List.mem_map.mp hrule
      exact hW _ (List.get_mem rules i) B g hg

/-- The stratified model of the rules over a set of triples. -/
def IsPerfectModel (rules : List SrlRule) (B M : Set GroundTriple) : Prop :=
  ∃ strata, Stratified rules strata ∧ M = perfectModel rules strata B

end GoRdf
