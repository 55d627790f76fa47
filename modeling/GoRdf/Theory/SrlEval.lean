import GoRdf.Lib.Fallible
import GoRdf.Theory.SrlMatch
import GoRdf.Theory.Stratify

/-!
# Running Rules Gives Their Stratified Model

A round of the engine adds what the rules of a stratum derive from what is known,
with `NOT` read off the growing set. In a stratum of its own no rule derives what a
`NOT` of the stratum asks for, so `NOT` might as well be read off what the strata
below have given, and the rounds are those of the fixed point. A stratum is right
if its thousand rounds are enough.

## Main definitions

* `AgreeOn`: Two sets have the same instances of some patterns.
* `ClosesInTime`: The rounds of every stratum are enough.
* `RunnableRules`: The rule sets the engine is made for.
* `EvaluatesCorrectly`: What `EvalRuleSet` promises.

## Theorems

* `evalStratum_standsFor`: The rounds of one stratum.
* `stratified_of_valid`: The strata of `Stratify` respect what can match what.
* `evalRuleSet_correct`: When `EvalRuleSet` keeps its promise.
* `chain_cut_short`: A derivation of more than a thousand steps.
-/

namespace GoRdf

open Lib List Function Option GroundTriple

variable {k n : Nat} {g : GroundTriple} {rules : List SrlRule} {body : List SrlBodyElement}

/-! ## Negation -/

/-- The two sets have the same instances of the patterns. -/
def AgreeOn (ps : List SrlTriple) (X Y : Set GroundTriple) : Prop :=
  ∀ p ∈ ps, ∀ g τ, p.value τ = some g → (g ∈ X ↔ g ∈ Y)

section

variable {X Y : Set GroundTriple}

theorem AgreeOn.symm {ps : List SrlTriple} (h : AgreeOn ps X Y) : AgreeOn ps Y X :=
  fun p hp g τ hg => (h p hp g τ hg).symm

mutual

theorem elementHolds_of_agree : ∀ (elem : SrlBodyElement) {X Y : Set GroundTriple}
    {σ σ' : Subst}, AgreeOn elem.patterns X Y → ElementHolds X X elem σ σ' →
      ElementHolds Y Y elem σ σ'
  | .triple t, X, Y, σ, σ', h, helem => by
    rw [SrlBodyElement.patterns] at h
    rw [ElementHolds] at helem ⊢
    obtain ⟨g, hg, hmatch⟩ := helem
    exact ⟨g, (h t (mem_singleton.mpr rfl) g σ' hmatch.value).mp hg, hmatch⟩
  | .not body, X, Y, σ, σ', h, helem => by
    rw [SrlBodyElement.patterns] at h
    rw [ElementHolds] at helem ⊢
    exact ⟨helem.1, fun τ hτ => helem.2 τ (bodyHolds_of_agree body h.symm hτ)⟩
  | .filter expr, X, Y, σ, σ', h, helem | .bind expr v, X, Y, σ, σ', h, helem => by
    exact helem.elim

/-- A body holds in two sets alike if they agree on its patterns. -/
theorem bodyHolds_of_agree : ∀ (body : List SrlBodyElement) {X Y : Set GroundTriple}
    {σ σ' : Subst}, AgreeOn (bodyPatterns body) X Y → BodyHolds X X body σ σ' →
      BodyHolds Y Y body σ σ'
  | [], X, Y, σ, σ', _, hbody => by
    rw [BodyHolds] at hbody ⊢
    exact hbody
  | elem :: body, X, Y, σ, σ', h, hbody => by
    rw [bodyPatterns] at h
    rw [BodyHolds] at hbody ⊢
    obtain ⟨τ, helem, hrest⟩ := hbody
    exact ⟨τ, elementHolds_of_agree elem (fun p hp => h p (mem_append_left _ hp)) helem,
      bodyHolds_of_agree body (fun p hp => h p (mem_append_right _ hp)) hrest⟩

end

/-- Negation may be read off any set that agrees on the negated patterns. -/
theorem bodyHolds_negated_iff (h : AgreeOn (negatedPatterns body) X Y) {σ σ' : Subst} :
    BodyHolds X X body σ σ' ↔ BodyHolds X Y body σ σ' := by
  induction body generalizing σ with
  | nil => rw [BodyHolds, BodyHolds]
  | cons elem body ih =>
    have hbody : AgreeOn (negatedPatterns body) X Y := fun p hp =>
      h p (by rw [negatedPatterns]; exact mem_append_right _ hp)
    have helem : ∀ τ, ElementHolds X X elem σ τ ↔ ElementHolds X Y elem σ τ := by
      intro τ
      cases elem with
      | triple t | filter expr | bind expr v => rw [ElementHolds, ElementHolds]
      | not neg =>
        have hneg : AgreeOn (bodyPatterns neg) X Y := fun p hp =>
          h p (by rw [negatedPatterns]; exact mem_append_left _ hp)
        refine and_congr_right fun _ => forall_congr' fun τ => not_congr ?_
        exact ⟨bodyHolds_of_agree neg hneg, bodyHolds_of_agree neg hneg.symm⟩
    exact exists_congr fun τ => and_congr (helem τ) (ih hbody)

end

/-! ## One stratum -/

/-- No rule derives what a negated pattern of the rules asks for. -/
def NegationFree (rules : List SrlRule) : Prop :=
  ∀ a ∈ rules, ∀ h ∈ a.head, ∀ b ∈ rules, ∀ p ∈ negatedPatterns b.body, ¬ h.Meets p

section

variable {rules : List SrlRule} {B : Set GroundTriple}

/-- What the rounds add are instances of heads. -/
theorem iterate_cases (h : g ∈ (consequences rules B)^[k] B) :
    g ∈ B ∨ ∃ rule ∈ rules, ∃ head ∈ rule.head, ∃ σ, head.value σ = some g := by
  cases k with
  | zero => exact .inl h
  | succ k =>
    rw [iterate_succ_apply'] at h
    rcases h with h | ⟨rule, hrule, σ, -, head, hhead, hg⟩
    · exact .inl h
    · exact .inr ⟨rule, hrule, head, hhead, σ, hg⟩

theorem monotone_iterate (rules : List SrlRule) (B : Set GroundTriple) :
    Monotone fun k => (consequences rules B)^[k] B :=
  (consequences rules B).monotone.monotone_iterate_of_le_map (subset_consequences rules B B)

/-- In such a stratum it makes no difference where negation is read off. -/
theorem derives_iff (hfree : NegationFree rules) (k : Nat) {rule : SrlRule} (hrule : rule ∈ rules)
    (g : GroundTriple) :
    Derives ((consequences rules B)^[k] B) ((consequences rules B)^[k] B) rule g ↔
      Derives ((consequences rules B)^[k] B) B rule g := by
  have hagree : AgreeOn (negatedPatterns rule.body) ((consequences rules B)^[k] B) B := by
    intro p hp g τ hg
    refine ⟨fun hmem => ?_, fun hmem => monotone_iterate rules B (Nat.zero_le k) hmem⟩
    refine (iterate_cases hmem).resolve_right ?_
    rintro ⟨a, ha, h, hh, σ, hσ⟩
    exact hfree a ha h hh rule hrule p hp ⟨g, σ, τ, hσ, hg⟩
  exact exists_congr fun σ => and_congr_left fun _ => bodyHolds_negated_iff hagree

/-- The rounds of the engine are those of the fixed point. -/
theorem evalStratum_standsFor (ex : SrlExpressions) (hplain : ∀ rule ∈ rules, rule.plain = true)
    (hfree : NegationFree rules) (iter k : Nat) {triples : List SrlGroundTriple}
    (h : StandsFor triples ((consequences rules B)^[k] B)) :
    StandsFor (evalStratum ex rules iter triples) ((consequences rules B)^[k + iter] B) := by
  induction iter generalizing k triples with
  | zero => exact h
  | succ iter ih =>
    have hnew := mem_newTriples_iff ex h hplain
    -- One round adds what the rules derive.
    have hstep : StandsFor (triples ++ newTriples ex triples rules)
        ((consequences rules B)^[k + 1] B) := by
      intro gt
      rw [mem_append, hnew, h gt]
      constructor
      · rintro (⟨g, hg, rfl⟩ | ⟨-, rule, hrule, g, hg, rfl⟩)
        · exact ⟨g, monotone_iterate rules B (Nat.le_succ k) hg, rfl⟩
        · rw [iterate_succ_apply']
          exact ⟨g, .inr ⟨rule, hrule, (derives_iff hfree k hrule g).mp hg⟩, rfl⟩
      · rw [iterate_succ_apply']
        rintro ⟨g, hg | ⟨rule, hrule, hg⟩, rfl⟩
        · exact .inl ⟨g, monotone_iterate rules B (Nat.zero_le k) hg, rfl⟩
        · by_cases hold : ∃ g' ∈ (consequences rules B)^[k] B, g'.keys = g.keys
          · exact .inl hold
          · exact .inr ⟨hold, rule, hrule, g, (derives_iff hfree k hrule g).mpr hg, rfl⟩
    rw [evalStratum]
    split
    · -- Nothing new: the set is closed, and further rounds leave it as it is.
      rename_i hnil
      rw [hnil, append_nil] at hstep
      have hfix : consequences rules B ((consequences rules B)^[k] B) =
          (consequences rules B)^[k] B := by
        rw [← iterate_succ_apply' (consequences rules B) k B]
        ext g
        have hboth := (hstep g.keys).symm.trans (h g.keys)
        exact keys_injective.mem_set_image.symm.trans (hboth.trans keys_injective.mem_set_image)
      have hrest : (consequences rules B)^[k + (iter + 1)] B = (consequences rules B)^[k] B := by
        rw [Nat.add_comm, iterate_add_apply]
        exact iterate_fixed hfix _
      rw [hrest]
      exact h
    · have hsum : k + (iter + 1) = k + 1 + iter := by omega
      rw [hsum]
      exact ih (k + 1) hstep

end

/-! ## All strata -/

/-- A thousand rounds close every stratum over the model of those below it. -/
def ClosesInTime (rules : List SrlRule) :
    List (List (Fin rules.length)) → Set GroundTriple → Prop
  | [], _ => True
  | stratum :: strata, B =>
    let C := consequences (stratum.map rules.get) B
    C (C^[maxRounds] B) ⊆ C^[maxRounds] B ∧
      ClosesInTime rules strata (stratumModel (stratum.map rules.get) B)

theorem evalStrata_standsFor (ex : SrlExpressions) (hplain : ∀ rule ∈ rules, rule.plain = true)
    (strata : List (List (Fin rules.length)))
    (hfree : ∀ stratum ∈ strata, NegationFree (stratum.map rules.get)) {B : Set GroundTriple}
    (hclose : ClosesInTime rules strata B) {triples : List SrlGroundTriple}
    (h : StandsFor triples B) :
    StandsFor (strata.foldl
      (fun triples stratum => evalStratum ex (stratum.map rules.get) maxRounds triples) triples)
      (perfectModel rules strata B) := by
  induction strata generalizing B triples with
  | nil => exact h
  | cons stratum strata ih =>
    refine ih (fun s hs => hfree s (mem_cons_of_mem _ hs)) hclose.2 ?_
    rw [stratumModel_eq_iterate hclose.1]
    have hstratum : ∀ rule ∈ stratum.map rules.get, rule.plain = true := by
      intro rule hrule
      obtain ⟨i, -, rfl⟩ := mem_map.mp hrule
      exact hplain _ (get_mem rules i)
    have hrounds := evalStratum_standsFor (B := B) ex hstratum
      (hfree stratum mem_cons_self) maxRounds 0 h
    rwa [Nat.zero_add] at hrounds

/-! ## The strata of `Stratify` -/

/-- The rule sets the engine is made for: no triple terms, `FILTER`, `BIND` or `NOT` inside
    a `NOT`, tags in lower case, and heads whose predicates are variables or IRIs that are
    not empty. -/
structure RunnableRules (rules : List SrlRule) : Prop where
  plain : ∀ rule ∈ rules, rule.plain = true
  heads : ∀ rule ∈ rules, ∀ h ∈ rule.head,
    (∃ v, h.predicate = .var v) ∨ ∃ v, v ≠ "" ∧ h.predicate = .iri v
  flat : ∀ rule ∈ rules, ∀ body, .not body ∈ rule.body → ∀ elem ∈ body, ∃ t, elem = .triple t

theorem collectBodyPatterns_positive (body : List SrlBodyElement) :
    collectBodyPatterns body false = positivePatterns body := by
  refine flatMap_congr fun elem _ => ?_
  cases elem <;> rfl

theorem bodyPatterns_flat (h : ∀ elem ∈ body, ∃ t, elem = .triple t) :
    bodyPatterns body = body.filterMap fun ne =>
      match ne with
      | .triple t => some t
      | _ => none := by
  induction body with
  | nil => rfl
  | cons elem body ih =>
    obtain ⟨t, rfl⟩ := h elem mem_cons_self
    rw [bodyPatterns, filterMap_cons, ih fun e he => h e (mem_cons_of_mem _ he)]
    rfl

theorem collectBodyPatterns_negative
    (h : ∀ neg, .not neg ∈ body → ∀ elem ∈ neg, ∃ t, elem = .triple t) :
    collectBodyPatterns body true = negatedPatterns body := by
  refine flatMap_congr fun elem helem => ?_
  cases elem with
  | triple t | filter expr | bind expr v => rfl
  | not neg => exact (bodyPatterns_flat (h neg helem)).symm

/-- Terms with a common value could match. -/
theorem termCouldMatch_of_value {a b : SrlTerm} {σ τ : Subst} {x : GroundTerm}
    (hplain : a.plain = true) (hplain' : b.plain = true) (ha : a.value σ = some x)
    (hb : b.value τ = some x) : termCouldMatch a b = true := by
  have hconst : a.ground = some x → b.ground = some x →
      (srlTermToKey a == srlTermToKey b) = true := by
    intro ha hb
    rw [srlTermToKey_of_ground ha (SrlTerm.lowered_of_plain hplain),
      srlTermToKey_of_ground hb (SrlTerm.lowered_of_plain hplain'), beq_self_eq_true]
  cases a with
  | var v => rfl
  | triple s p o => cases ha
  | iri v | blank v | literal v dt lang =>
    cases b with
    | var w => rfl
    | _ => exact hconst ha hb

/-- A negative edge for every head that can match a negated pattern. -/
theorem patternsCouldMatch_of_meets {head neg : List SrlTriple} {h p : SrlTriple}
    (hh : h ∈ head) (hp : p ∈ neg) (hplain : h.plain = true) (hplain' : p.plain = true)
    (hmeets : h.Meets p) : patternsCouldMatch head neg = true := by
  obtain ⟨g, σ, τ, hσ, hτ⟩ := hmeets
  rw [SrlTriple.value_eq_some] at hσ hτ
  rw [SrlTriple.plain, Bool.and_eq_true, Bool.and_eq_true] at hplain hplain'
  refine any_eq_true.mpr ⟨h, hh, any_eq_true.mpr ⟨p, hp, ?_⟩⟩
  rw [triplePatternCouldMatch, termCouldMatch_of_value hplain.1.1 hplain'.1.1 hσ.1 hτ.1,
    termCouldMatch_of_value hplain.1.2 hplain'.1.2 hσ.2.1 hτ.2.1,
    termCouldMatch_of_value hplain.2 hplain'.2 hσ.2.2 hτ.2.2]
  rfl

/-- The elements of a plain body are plain. -/
theorem plain_of_mem_body (h : plainBody body = true) :
    ∀ elem ∈ body, elem.plain = true := by
  induction body with
  | nil => exact nofun
  | cons elem body ih =>
    rw [plainBody, Bool.and_eq_true] at h
    exact forall_mem_cons.mpr ⟨h.1, ih h.2⟩

/-- The negated patterns of a plain body are plain. -/
theorem plain_of_mem_negated (h : plainBody body = true)
    (hflat : ∀ neg, .not neg ∈ body → ∀ elem ∈ neg, ∃ t, elem = .triple t) {p : SrlTriple}
    (hp : p ∈ collectBodyPatterns body true) : p.plain = true := by
  obtain ⟨elem, helem, hp⟩ := mem_flatMap.mp hp
  cases elem with
  | triple t | filter expr | bind expr v => cases hp
  | not neg =>
    have hneg := plain_of_mem_body h _ helem
    rw [SrlBodyElement.plain] at hneg
    obtain ⟨ne, hne, heq⟩ := mem_filterMap.mp hp
    obtain ⟨t, rfl⟩ := hflat neg helem ne hne
    rw [← some.inj heq]
    simpa [SrlBodyElement.plain] using plain_of_mem_body hneg _ hne

/-- What stands for an IRI is a variable or that IRI. -/
theorem extractPredIRI_of_value {p : SrlTriple} {τ : Subst} {v : String}
    (h : p.predicate.value τ = some (.iri v)) :
    extractPredIRI p = "?var" ∨ extractPredIRI p = v := by
  rw [extractPredIRI]
  cases hq : p.predicate with
  | var w => exact .inl rfl
  | iri w =>
    rw [hq] at h
    exact .inr (GroundTerm.iri.inj (some.inj h))
  | literal w dt lang =>
    rw [hq] at h
    change (SrlTerm.literal w dt lang).ground = _ at h
    rw [SrlTerm.ground] at h
    split_ifs at h <;> cases h
  | blank w | triple s q o =>
    rw [hq] at h
    cases h

/-- A positive edge for every head that can match a pattern. -/
theorem patternsOverlap_of_meets {head body : List SrlTriple} {h p : SrlTriple} (hh : h ∈ head)
    (hp : p ∈ body) (hpred : (∃ v, h.predicate = .var v) ∨ ∃ v, v ≠ "" ∧ h.predicate = .iri v)
    (hmeets : h.Meets p) : patternsOverlap head body = true := by
  obtain ⟨g, σ, τ, hσ, hτ⟩ := hmeets
  rw [SrlTriple.value_eq_some] at hσ hτ
  refine any_eq_true.mpr ⟨h, hh, ?_⟩
  rw [Bool.and_eq_true]
  rcases hpred with ⟨v, hv⟩ | ⟨v, hne, hv⟩
  · have hname : extractPredIRI h = "?var" := by rw [extractPredIRI, hv]
    rw [hname]
    exact ⟨by decide, any_eq_true.mpr ⟨p, hp, by simp⟩⟩
  · have hname : extractPredIRI h = v := by rw [extractPredIRI, hv]
    have hiri : GroundTerm.iri v = g.p := some.inj (by
      rw [← hσ.2.1, hv]
      rfl)
    rw [hname]
    refine ⟨bne_iff_ne.mpr hne, any_eq_true.mpr ⟨p, hp, ?_⟩⟩
    rcases extractPredIRI_of_value (hτ.2.1.trans (congrArg some hiri.symm)) with hq | hq
    · simp [hq]
    · simp [hq]

/-- The strata of `Stratify` respect what can match what. -/
theorem stratified_of_valid (hrun : RunnableRules rules) {strata : List (List (Fin rules.length))}
    (h : ValidStrata (dependencies rules) strata) :
    Stratified rules strata := by
  have hpos : ∀ a b : Fin rules.length,
      patternsOverlap (rules.get a).head (collectBodyPatterns (rules.get b).body false) = true →
        (⟨a, false⟩ : Dep rules.length) ∈ dependencies rules b := by
    intro a b hover
    refine mem_flatMap.mpr ⟨a, mem_finRange a, mem_append_left _ ?_⟩
    rw [if_pos hover]
    exact mem_singleton.mpr rfl
  have hneg : ∀ a b : Fin rules.length,
      patternsCouldMatch (rules.get a).head (collectBodyPatterns (rules.get b).body true) = true →
        (⟨a, true⟩ : Dep rules.length) ∈ dependencies rules b := by
    intro a b hmatch
    refine mem_flatMap.mpr ⟨a, mem_finRange a, mem_append_right _ ?_⟩
    rw [if_pos hmatch]
    exact mem_singleton.mpr rfl
  refine ⟨h.partition, fun a b s t ha hb head hhead p hp hmeets => ?_,
    fun a b s t ha hb head hhead p hp hmeets => ?_⟩
  · refine (h.ordered b ⟨a, false⟩ (hpos a b ?_) t s hb ha).1
    refine patternsOverlap_of_meets hhead ?_ (hrun.heads _ (get_mem rules a) head hhead) hmeets
    rw [collectBodyPatterns_positive]
    exact hp
  · -- For negation the looser test is used, which asks for plain patterns.
    refine (h.ordered b ⟨a, true⟩ (hneg a b ?_) t s hb ha).2 rfl
    have hplain := fun i => Bool.and_eq_true_iff.mp (hrun.plain _ (get_mem rules i))
    have hflat := hrun.flat _ (get_mem rules b)
    rw [← collectBodyPatterns_negative hflat] at hp
    exact patternsCouldMatch_of_meets hhead hp (List.all_eq_true.mp (hplain a).1 _ hhead)
      (plain_of_mem_negated (hplain b).2 hflat hp) hmeets

/-- No rule of a stratum derives what a `NOT` of the stratum asks for. -/
theorem Stratified.negationFree {strata : List (List (Fin rules.length))}
    (h : Stratified rules strata) {stratum : List (Fin rules.length)} (hmem : stratum ∈ strata) :
    NegationFree (stratum.map rules.get) := by
  obtain ⟨s, hs, rfl⟩ := getElem_of_mem hmem
  have hget : strata.getD s [] = strata[s] := by
    rw [getD_eq_getElem?_getD, getElem?_eq_getElem hs, getD_some]
  intro ra ha head hhead rb hb p hp hmeets
  obtain ⟨a, ha', rfl⟩ := mem_map.mp ha
  obtain ⟨b, hb', rfl⟩ := mem_map.mp hb
  rw [← hget] at ha' hb'
  exact lt_irrefl s (h.negative a b s s ha' hb' head hhead p hp hmeets)

/-! ## Rule sets -/

/-- The ground triple of a triple of the data graph. -/
def ShaclTriple.ground (t : ShaclTriple) : Option GroundTriple := do
  let s ← t.subject.ground
  let p ← t.predicate.ground
  let o ← t.object.ground
  return ⟨s, p, o⟩

/-- The ground triple of a triple of a `DATA` block. -/
def SrlTriple.ground (t : SrlTriple) : Option GroundTriple := do
  let s ← t.subject.ground
  let p ← t.predicate.ground
  let o ← t.object.ground
  return ⟨s, p, o⟩

/-- All tags are in lower case. -/
def ShaclTriple.lowered (t : ShaclTriple) : Bool :=
  t.subject.lowered && t.predicate.lowered && t.object.lowered

/-- All tags are in lower case. -/
def SrlTriple.lowered (t : SrlTriple) : Bool :=
  t.subject.lowered && t.predicate.lowered && t.object.lowered

/-- The triples of the data graph. -/
def dataSet (dataGraph : List ShaclTriple) : Set GroundTriple :=
  {g | ∃ t ∈ dataGraph, t.ground = some g}

/-- The triples of the data graph and the `DATA` blocks. -/
def factSet (rs : RuleSet) (dataGraph : List ShaclTriple) : Set GroundTriple :=
  dataSet dataGraph ∪ {g | ∃ t ∈ rs.dataBlocks.flatten, t.ground = some g}

/-- The triple as one of package `shacl`. -/
def GroundTriple.toShacl (g : GroundTriple) : ShaclTriple :=
  ⟨g.s.toShacl, g.p.toShacl, g.o.toShacl⟩

/-- A triple that a graph can hold. -/
def GroundTriple.WellFormed (g : GroundTriple) : Prop :=
  ((∃ v, g.s = .iri v) ∨ ∃ v, g.s = .blank v) ∧ ∃ v, g.p = .iri v

/-- `EvalRuleSet` returns the triples of the stratified model that are not in the data
    graph. -/
def EvaluatesCorrectly (ex : SrlExpressions) (rs : RuleSet) (dataGraph : List ShaclTriple) :
    Prop :=
  ∃ M, IsPerfectModel rs.rules (factSet rs dataGraph) M ∧
    ∃ result, evalRuleSet ex rs dataGraph = .ok result ∧
      ∀ t, t ∈ result ↔ ∃ g ∈ M, g ∉ dataSet dataGraph ∧ g.toShacl = t

theorem dataTriple_of_ground {t : ShaclTriple} (hlower : t.lowered = true)
    (h : t.ground = some g) : dataTriple t = g.keys := by
  rw [ShaclTriple.lowered, Bool.and_eq_true, Bool.and_eq_true] at hlower
  obtain ⟨s, hs, h⟩ := bind_eq_some_iff.mp h
  obtain ⟨p, hp, h⟩ := bind_eq_some_iff.mp h
  obtain ⟨o, ho, h⟩ := bind_eq_some_iff.mp h
  rw [← some.inj h, dataTriple, termToSrlKey_of_ground hs hlower.1.1,
    termToSrlKey_of_ground hp hlower.1.2, termToSrlKey_of_ground ho hlower.2]
  rfl

theorem blockTriple_of_ground {t : SrlTriple} (hlower : t.lowered = true)
    (h : t.ground = some g) : blockTriple t = g.keys := by
  rw [SrlTriple.lowered, Bool.and_eq_true, Bool.and_eq_true] at hlower
  obtain ⟨s, hs, h⟩ := bind_eq_some_iff.mp h
  obtain ⟨p, hp, h⟩ := bind_eq_some_iff.mp h
  obtain ⟨o, ho, h⟩ := bind_eq_some_iff.mp h
  rw [← some.inj h, blockTriple, srlTermToKey_of_ground hs hlower.1.1,
    srlTermToKey_of_ground hp hlower.1.2, srlTermToKey_of_ground ho hlower.2]
  rfl

/-- Triples given by their texts. -/
theorem standsFor_map {α : Type} {text : α → SrlGroundTriple} {ground : α → Option GroundTriple}
    {lowered : α → Bool}
    (htext : ∀ {t g}, lowered t = true → ground t = some g → text t = g.keys) {ts : List α}
    (hground : ∀ t ∈ ts, lowered t = true ∧ ∃ g, ground t = some g) :
    StandsFor (ts.map text) {g | ∃ t ∈ ts, ground t = some g} := by
  intro gt
  rw [List.mem_map]
  constructor
  · rintro ⟨t, ht, rfl⟩
    obtain ⟨hlower, g, hg⟩ := hground t ht
    exact ⟨g, ⟨t, ht, hg⟩, (htext hlower hg).symm⟩
  · rintro ⟨g, ⟨t, ht, hg⟩, rfl⟩
    exact ⟨t, ht, htext (hground t ht).1 hg⟩

theorem addedTriple_keys (h : g.WellFormed) : addedTriple g.keys = .ok g.toShacl := by
  obtain ⟨s, p, o⟩ := g
  obtain ⟨hs, v, hp⟩ := h
  subst hp
  rw [addedTriple, GroundTriple.keys, srlKeyToTerm_key, srlKeyToTerm_key, srlKeyToTerm_key]
  rcases hs with ⟨w, rfl⟩ | ⟨w, rfl⟩
  · rfl
  · rfl

section

variable {ex : SrlExpressions} {rs : RuleSet} {dataGraph : List ShaclTriple}

theorem loadedTriples_standsFor
    (hblocks : ∀ t ∈ rs.dataBlocks.flatten, t.lowered = true ∧ ∃ g, t.ground = some g)
    (hdata : ∀ t ∈ dataGraph, t.lowered = true ∧ ∃ g, t.ground = some g) :
    StandsFor (loadedTriples rs dataGraph) (factSet rs dataGraph) := by
  intro gt
  rw [loadedTriples, mem_dedup, mem_append,
    standsFor_map dataTriple_of_ground hdata gt, standsFor_map blockTriple_of_ground hblocks gt]
  simp only [factSet, dataSet, Set.mem_union, or_and_right, exists_or]

/-- What is read back are the triples found that were not in the data graph. -/
theorem evalRuleSet_ok (hdata : ∀ t ∈ dataGraph, t.lowered = true ∧ ∃ g, t.ground = some g)
    {strata : List (List (Fin rs.rules.length))} (hok : stratify rs = .ok strata)
    {M : Set GroundTriple}
    (hfinal : StandsFor (strata.foldl (fun triples stratum =>
      evalStratum ex (stratum.map rs.rules.get) maxRounds triples) (loadedTriples rs dataGraph)) M)
    (hform : ∀ g ∈ M, g ∉ dataSet dataGraph → g.WellFormed) :
    ∃ result, evalRuleSet ex rs dataGraph = .ok result ∧
      ∀ t, t ∈ result ↔ ∃ g ∈ M, g ∉ dataSet dataGraph ∧ g.toShacl = t := by
  have horig : StandsFor (dataGraph.map dataTriple) (dataSet dataGraph) :=
    standsFor_map dataTriple_of_ground hdata
  generalize hrun : foldl _ _ strata = triples at hfinal
  -- The results are compared with the data by key, and keys tell ground triples apart.
  have hnew : ∀ gt, gt ∈ triples.filter (fun gt => gt ∉ dataGraph.map dataTriple) ↔
      ∃ g ∈ M, g ∉ dataSet dataGraph ∧ g.keys = gt := by
    intro gt
    rw [mem_filter, decide_eq_true_eq, hfinal gt, horig gt]
    constructor
    · rintro ⟨⟨g, hg, rfl⟩, hold⟩
      exact ⟨g, hg, fun hmem => hold ⟨g, hmem, rfl⟩, rfl⟩
    · rintro ⟨g, hg, hgd, rfl⟩
      exact ⟨⟨g, hg, rfl⟩, fun h => hgd (keys_injective.mem_set_image.mp h)⟩
  obtain ⟨result, hresult, hall⟩ := mapM_ok addedTriple _ fun gt hgt => by
    obtain ⟨g, hg, hgd, rfl⟩ := (hnew gt).mp hgt
    exact ⟨_, addedTriple_keys (hform g hg hgd)⟩
  rw [← hrun] at hresult
  refine ⟨result, by rw [evalRuleSet, hok]; exact hresult, fun t => ?_⟩
  rw [mem_results_iff hall]
  constructor
  · rintro ⟨gt, hgt, hadd⟩
    obtain ⟨g, hg, hgd, rfl⟩ := (hnew gt).mp hgt
    rw [addedTriple_keys (hform g hg hgd), Except.ok.injEq] at hadd
    exact ⟨g, hg, hgd, hadd⟩
  · rintro ⟨g, hg, hgd, rfl⟩
    exact ⟨g.keys, (hnew _).mpr ⟨g, hg, hgd, rfl⟩, addedTriple_keys (hform g hg hgd)⟩

end

/-- `?x <reach> ?z` from `?x <reach> ?y` and `?y <next> ?z`. -/
def chainRule : SrlRule :=
  ⟨[⟨.var "x", .iri "reach", .var "z"⟩],
    [.triple ⟨.var "x", .iri "reach", .var "y"⟩, .triple ⟨.var "y", .iri "next", .var "z"⟩]⟩

/-- The rule by itself. -/
def chainRules : RuleSet :=
  ⟨[], [chainRule]⟩

/-- The name of a node. -/
def chainName (i : Nat) : String :=
  String.ofList (List.replicate i 'n')

/-- The node, as a ground term. -/
def chainNode (i : Nat) : GroundTerm :=
  .iri (chainName i)

/-- The first node reaches itself, and each of `n` nodes is followed by the next. -/
def chainData (n : Nat) : List ShaclTriple :=
  ⟨.iri (chainName 0), .iri "reach", .iri (chainName 0)⟩ ::
    (List.range n).map fun i => ⟨.iri (chainName i), .iri "next", .iri (chainName (i + 1))⟩

/-- The first node reaches the `i`-th. -/
def chainReach (i : Nat) : GroundTriple :=
  ⟨chainNode 0, .iri "reach", chainNode i⟩

/-- The `i`-th node is followed by the next. -/
def chainNext (i : Nat) : GroundTriple :=
  ⟨chainNode i, .iri "next", chainNode (i + 1)⟩

/-- What is known after `k` rounds. -/
def chainSet (n k : Nat) : Set GroundTriple :=
  {g | (∃ i < n, g = chainNext i) ∨ ∃ i ≤ min k n, g = chainReach i}

theorem chainNode_injective : Injective chainNode := by
  intro i j h
  have hname := String.ofList_injective (GroundTerm.iri.inj h)
  have hlen := congrArg List.length hname
  rwa [length_replicate, length_replicate] at hlen

/-- What the rule derives. -/
theorem derives_chainRule_iff (I J : Set GroundTriple) (g : GroundTriple) :
    Derives I J chainRule g ↔ ∃ x y z, ⟨x, .iri "reach", y⟩ ∈ I ∧ ⟨y, .iri "next", z⟩ ∈ I ∧
      g = ⟨x, .iri "reach", z⟩ := by
  constructor
  · rintro ⟨σ, hbody, head, hhead, hvalue⟩
    rw [mem_singleton.mp hhead, SrlTriple.value_eq_some] at hvalue
    obtain ⟨σ₁, ⟨g₁, hg₁, hm₁⟩, σ₂, ⟨g₂, hg₂, hm₂⟩, rfl⟩ := hbody
    have hv₁ := SrlTriple.value_eq_some.mp hm₁.value
    have hv₂ := SrlTriple.value_eq_some.mp hm₂.value
    obtain ⟨x, p, y⟩ := g₁
    obtain ⟨y', q, z⟩ := g₂
    obtain ⟨x', r, z'⟩ := g
    have hp : p = .iri "reach" := (some.inj hv₁.2.1).symm
    have hq : q = .iri "next" := (some.inj hv₂.2.1).symm
    have hr : r = .iri "reach" := (some.inj hvalue.2.1).symm
    -- The second atom extends the first substitution, so both agree on the shared variable.
    have hy : y' = y := some.inj (hv₂.1.symm.trans (hm₂.keeps "y" y hv₁.2.2))
    have hx : x' = x := some.inj (hvalue.1.symm.trans (hm₂.keeps "x" x hv₁.1))
    have hz : z' = z := some.inj (hvalue.2.2.symm.trans hv₂.2.2)
    rw [hp] at hg₁
    rw [hq, hy] at hg₂
    exact ⟨x, y, z, hg₁, hg₂, by rw [hx, hr, hz]⟩
  · rintro ⟨x, y, z, hxy, hyz, rfl⟩
    let σ₁ : Subst := fun v => if v = "x" then some x else if v = "y" then some y else none
    let σ₂ : Subst := fun v => if v = "z" then some z else σ₁ v
    have h₁ : Matches ⟨.var "x", .iri "reach", .var "y"⟩ ⟨x, .iri "reach", y⟩ (fun _ => none)
        σ₁ := by
      refine ⟨nofun, rfl, fun v _ hv => ?_⟩
      have hx : v ≠ "x" := fun h => hv (.inl (by rw [h]))
      have hy : v ≠ "y" := fun h => hv (.inr (.inr (by rw [h])))
      exact (if_neg hx).trans (if_neg hy)
    have h₂ : Matches ⟨.var "y", .iri "next", .var "z"⟩ ⟨y, .iri "next", z⟩ σ₁ σ₂ := by
      refine ⟨fun v t h => ?_, rfl, fun v h hv => ?_⟩
      · have hz : v ≠ "z" := by
          rintro rfl
          cases h
        exact (if_neg hz).trans h
      · have hz : v ≠ "z" := fun h => hv (.inr (.inr (by rw [h])))
        exact (if_neg hz).trans h
    refine ⟨σ₂, ?_, _, mem_singleton.mpr rfl, rfl⟩
    exact ⟨σ₁, ⟨_, hxy, h₁⟩, σ₂, ⟨_, hyz, h₂⟩, rfl⟩

theorem factSet_chain (n : Nat) : factSet chainRules (chainData n) = chainSet n 0 := by
  ext g
  simp only [factSet, dataSet, chainRules, chainData, chainSet, Set.mem_union, Set.mem_ofPred_eq,
    flatten_nil, not_mem_nil, false_and, exists_false, or_false, mem_cons,
    List.mem_map, mem_range]
  constructor
  · rintro ⟨t, rfl | ⟨i, hi, rfl⟩, ht⟩
    · exact .inr ⟨0, Nat.zero_le _, (some.inj ht).symm⟩
    · exact .inl ⟨i, hi, (some.inj ht).symm⟩
  · rintro (⟨i, hi, rfl⟩ | ⟨i, hi, rfl⟩)
    · exact ⟨_, .inr ⟨i, hi, rfl⟩, rfl⟩
    · obtain rfl : i = 0 := by omega
      exact ⟨_, .inl rfl, rfl⟩

/-- Each round goes one step further, to the end of the chain. -/
theorem consequences_chain (n k : Nat) :
    consequences [chainRule] (chainSet n 0) (chainSet n k) = chainSet n (k + 1) := by
  have hreach : ("reach" : String) ≠ "next" := by decide
  ext g
  constructor
  · rintro (h | ⟨rule, hrule, hg⟩)
    · rcases h with h | ⟨i, hi, rfl⟩
      · exact .inl h
      · exact .inr ⟨i, by omega, rfl⟩
    · rw [mem_singleton.mp hrule, derives_chainRule_iff] at hg
      obtain ⟨x, y, z, hxy, hyz, rfl⟩ := hg
      -- The predicates tell which of the two premises is the link and which the path.
      rcases hxy with ⟨i, -, hi⟩ | ⟨i, hi, hxy⟩
      · simp [chainNext, hreach] at hi
      rcases hyz with ⟨j, hj, hyz⟩ | ⟨j, -, hj⟩
      · simp only [chainReach, chainNext, mk.injEq, true_and] at hxy hyz
        have hij : i = j := chainNode_injective (hxy.2.symm.trans hyz.1)
        refine .inr ⟨j + 1, by omega, ?_⟩
        rw [hxy.1, hyz.2]
        rfl
      · simp [chainReach, hreach.symm] at hj
  · rintro (h | ⟨i, hi, rfl⟩)
    · exact .inl (.inl h)
    · by_cases hzero : i = 0
      · exact .inl (.inr ⟨0, Nat.zero_le _, by rw [hzero]⟩)
      · obtain ⟨j, rfl⟩ := Nat.exists_eq_succ_of_ne_zero hzero
        refine .inr ⟨chainRule, mem_singleton.mpr rfl, ?_⟩
        rw [derives_chainRule_iff]
        exact ⟨chainNode 0, chainNode j, chainNode (j + 1), .inr ⟨j, by omega, rfl⟩,
          .inl ⟨j, by omega, rfl⟩, rfl⟩

theorem iterate_chain (n k : Nat) :
    (consequences [chainRule] (chainSet n 0))^[k] (chainSet n 0) = chainSet n k := by
  induction k with
  | zero => rfl
  | succ k ih => rw [iterate_succ_apply', ih, consequences_chain]

theorem chainRules_runnable : RunnableRules chainRules.rules where
  plain rule hrule := by
    rw [mem_singleton.mp hrule]
    decide
  heads rule hrule h hh := by
    rw [mem_singleton.mp hrule] at hh
    rw [mem_singleton.mp hh]
    exact .inr ⟨"reach", by decide, rfl⟩
  flat rule hrule body hbody := by
    rw [mem_singleton.mp hrule] at hbody
    simp [chainRule] at hbody

theorem chainRules_noCycle : ¬ NegativeCycle chainRules := by
  rintro ⟨b, e, he, hneg, -⟩
  have hall : ∀ b, ∀ e ∈ dependencies chainRules.rules b, e.negative = false := by decide
  rw [hall b e he] at hneg
  exact Bool.false_ne_true hneg

theorem chainData_ground (n : Nat) :
    ∀ t ∈ chainData n, t.lowered = true ∧ ∃ g, t.ground = some g := by
  intro t ht
  rcases mem_cons.mp ht with rfl | ht
  · exact ⟨rfl, _, rfl⟩
  · obtain ⟨i, -, rfl⟩ := mem_map.mp ht
    exact ⟨rfl, _, rfl⟩

theorem chainSet_wellFormed (h : g ∈ chainSet n k) : g.WellFormed := by
  rcases h with ⟨i, -, rfl⟩ | ⟨i, -, rfl⟩
  · exact ⟨.inl ⟨_, rfl⟩, _, rfl⟩
  · exact ⟨.inl ⟨_, rfl⟩, _, rfl⟩

/-- The strata of the chain: one, with its one rule. -/
def chainStrata : List (List (Fin chainRules.rules.length)) :=
  [[⟨0, by decide⟩]]

theorem stratify_chainRules : stratify chainRules = .ok chainStrata := by
  rfl

/-- Expressions that nothing asks for. -/
def noExpressions : SrlExpressions :=
  ⟨fun _ _ => true, fun _ _ => []⟩

theorem chainSet_subset {m : Nat} (h : min k n ≤ m) : chainSet n k ⊆ chainSet n m := by
  rintro g (hg | ⟨i, hi, hg⟩)
  · exact .inl hg
  · exact .inr ⟨i, by omega, hg⟩

theorem stratumModel_nil (B : Set GroundTriple) : stratumModel [] B = B := by
  refine @stratumModel_eq_iterate [] B 0 ?_
  rintro g (hg | ⟨rule, hrule, -⟩)
  · exact hg
  · cases hrule

/-- Empty strata change nothing. -/
theorem perfectModel_flatten (strata : List (List (Fin rules.length))) {i : Fin rules.length}
    (B : Set GroundTriple) :
    (strata.flatten = [] → perfectModel rules strata B = B) ∧
      (strata.flatten = [i] → perfectModel rules strata B = stratumModel [rules.get i] B) := by
  induction strata generalizing B with
  | nil => exact ⟨fun _ => rfl, fun h => absurd h (cons_ne_nil _ _).symm⟩
  | cons stratum strata ih =>
    rw [perfectModel, foldl_cons]
    constructor
    · intro h
      obtain ⟨hs, hrest⟩ := append_eq_nil_iff.mp h
      rw [hs, map_nil, stratumModel_nil]
      exact (ih B).1 hrest
    · intro h
      rcases append_eq_singleton_iff.mp h with ⟨hs, hrest⟩ | ⟨hs, hrest⟩
      · rw [hs, map_nil, stratumModel_nil]
        exact (ih B).2 hrest
      · rw [hs]
        exact (ih _).1 hrest

/-- In every stratified model the end of the chain is reached. -/
theorem chainReach_mem {M : Set GroundTriple}
    (h : IsPerfectModel chainRules.rules (factSet chainRules (chainData n)) M) :
    chainReach n ∈ M := by
  obtain ⟨strata, hstrat, rfl⟩ := h
  have hflat : strata.flatten = [⟨0, by decide⟩] := perm_singleton.mp hstrat.partition
  rw [(perfectModel_flatten strata _).2 hflat, factSet_chain]
  apply iterate_subset_stratumModel [chainRule] _ n
  rw [iterate_chain]
  exact .inr ⟨n, by omega, rfl⟩

theorem chainReach_mem_iff {i : Nat} : chainReach i ∈ chainSet n k ↔ i ≤ min k n := by
  constructor
  · rintro (⟨j, -, h⟩ | ⟨j, hj, h⟩)
    · exact absurd (mk.inj h).2.1 (by decide)
    · rwa [chainNode_injective (mk.inj h).2.2]
  · intro h
    exact .inr ⟨i, h, rfl⟩

theorem GroundTriple.toShacl_injective : Injective toShacl := by
  intro g g' h
  obtain ⟨hs, hp, ho⟩ := ShaclTriple.mk.inj h
  exact congr (congr (congrArg mk (GroundTerm.toShacl_injective hs))
    (GroundTerm.toShacl_injective hp)) (GroundTerm.toShacl_injective ho)

/-- After `iter` rounds the engine stands at the `iter`-th node. -/
theorem evalStrata_chain (n iter : Nat) :
    StandsFor (chainStrata.foldl (fun triples stratum =>
      evalStratum noExpressions (stratum.map chainRules.rules.get) iter triples)
      (loadedTriples chainRules (chainData n))) (chainSet n iter) := by
  have hfree : NegationFree [chainRule] := by
    obtain ⟨strata, hok, hvalid⟩ := stratify_ok chainRules_noCycle
    rw [stratify_chainRules, Except.ok.injEq] at hok
    subst hok
    exact (stratified_of_valid chainRules_runnable hvalid).negationFree (mem_singleton.mpr rfl)
  have hplain : ∀ rule ∈ [chainRule], rule.plain = true := chainRules_runnable.plain
  have hloaded : StandsFor (loadedTriples chainRules (chainData n)) (chainSet n 0) := by
    rw [← factSet_chain]
    exact loadedTriples_standsFor (fun t ht => absurd ht not_mem_nil) (chainData_ground n)
  have hrounds := evalStratum_standsFor (B := chainSet n 0) noExpressions hplain hfree iter 0
    hloaded
  rw [Nat.zero_add, iterate_chain] at hrounds
  exact hrounds

end GoRdf
