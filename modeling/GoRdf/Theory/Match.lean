import GoRdf.Theory.Bgp

/-!
# Matches of a Basic Graph Pattern

What the nested loops choose is one triple of the graph for each pattern, and
the row is what the choice binds. A triple has to fit its pattern: it has the
constants, and the values of the variables bound before. A variable that the
pattern itself binds is taken where it is met first, and no loop looks whether
the pattern meets it again with another term.

So the choices the loops make are wider than the solutions. They are the same
when equal terms of the patterns always meet equal terms of the graph, and then
a choice and its row determine each other.

Patterns here have no path and no triple term.

## Main definitions

* `PatternTriple.occurrences`: The positions of a pattern with what they meet.
* `PatternTriple.Fits`: The triple has the constants and the bound values.
* `Fitting`: A choice of triples that fit one after the other.
* `Coherent`: Equal terms of the patterns meet equal terms of the graph.
* `IsSolution`: The solutions of a basic graph pattern.

## Theorems

* `bgpSolutions_eq_map_choices`: The rows are those of the fitting choices.
* `fitting_coherent_iff`: Coherent choices in terms that do not depend on order.
* `isSolution_iff_choice`: Solutions are the rows of coherent choices.
-/

namespace GoRdf

open Lib List Finmap PatternTriple

variable {pl : Prologue} {row μ : Row} {ts : List Triple} {g : Graph} {tp : PatternTriple}
  {tps : List PatternTriple} {es : List (PatternTerm × Term)} {x : Term} {r : Option Term}
  {t : Triple} {pt : PatternTerm} {v : String}

/-! ## Terms and variables -/

/-- The term is not a triple term. -/
def PatternTerm.isAtom : PatternTerm → Bool
  | .triple _ _ _ => false
  | _ => true

/-- The variables of a term. -/
def PatternTerm.vars : PatternTerm → List String
  | .var v => [v]
  | .const _ => []
  | .name _ _ => []
  | .triple s p o => s.vars ++ p.vars ++ o.vars

/-- The variables of a pattern. -/
def PatternTriple.vars : PatternTriple → List String
  | ⟨s, .term p, o⟩ => s.vars ++ p.vars ++ o.vars
  | ⟨s, .path _, o⟩ => s.vars ++ o.vars

/-- The pattern has a predicate and no triple term. -/
def PatternTriple.isAtomic : PatternTriple → Bool
  | ⟨s, .term p, o⟩ => s.isAtom && p.isAtom && o.isAtom
  | ⟨_, .path _, _⟩ => false

/-- The positions of a pattern with the terms they meet in a triple. -/
def PatternTriple.occurrences (tp : PatternTriple) (t : Triple) : List (PatternTerm × Term) :=
  match tp with
  | ⟨s, .term p, o⟩ => [(s, .subject t.subject), (p, t.predicate.toTerm), (o, t.object)]
  | ⟨_, .path _, _⟩ => []

/-- The positions of all patterns, each with its own triple. -/
def occurrences (tps : List PatternTriple) (ts : List Triple) : List (PatternTerm × Term) :=
  (tps.zip ts).flatMap fun e => e.1.occurrences e.2

/-- The triple has the constants of the pattern and the values of the variables
    that are bound. -/
def PatternTriple.Fits (pl : Prologue) (row : Row) (tp : PatternTriple) (t : Triple) : Prop :=
  ∀ e ∈ tp.occurrences t, ∀ x, resolvePatternTerm pl row e.1 = some x → x = e.2

/-- What positions bind, each variable at the first it stands at. -/
def bindAll (es : List (PatternTerm × Term)) (row : Row) : Row :=
  es.foldl (fun row e => bindVar e.1 e.2 row) row

/-- A choice of triples of the graph, one for each pattern, each of which fits
    what the ones before it have bound. -/
def Fitting (pl : Prologue) (g : Graph) : List PatternTriple → Row → List Triple → Prop
  | [], _, ts => ts = []
  | tp :: tps, row, ts => ∃ t rest, ts = t :: rest ∧ t ∈ g.all ∧ tp.Fits pl row t ∧
      Fitting pl g tps (bindAll (tp.occurrences t) row) rest

/-- Equal terms of the patterns meet equal terms of the graph. -/
def Coherent (tps : List PatternTriple) (ts : List Triple) : Prop :=
  ∀ pt x y, (pt, x) ∈ occurrences tps ts → (pt, y) ∈ occurrences tps ts → x = y

/-- The triple a pattern becomes when a row is substituted. -/
def PatternTriple.subst (pl : Prologue) (row : Row) : PatternTriple → Option Triple
  | ⟨s, .term p, o⟩ => do
      let s ← (resolvePatternTerm pl row s).bind TermOf.asSubject
      let p ← (resolvePatternTerm pl row p).bind TermOf.asURIRef
      let o ← resolvePatternTerm pl row o
      return ⟨s, p, o⟩
  | ⟨_, .path _, _⟩ => none

/-- A solution of a basic graph pattern from given bindings: it extends them by
    the pattern's variables, and every pattern becomes a triple of the graph. -/
def IsSolution (pl : Prologue) (g : Graph) (tps : List PatternTriple) (init row : Row) : Prop :=
  Extends init row ∧ (∀ v, v ∈ row ↔ v ∈ init ∨ ∃ tp ∈ tps, v ∈ tp.vars) ∧
    ∀ tp ∈ tps, ∃ t ∈ g.all, tp.subst pl row = some t

/-! ## Binding -/

theorem lookup_bindVar_var (v w : String) (x : Term) (row : Row) :
    (bindVar (.var v) x row).lookup w = (row.lookup w).or (if w = v then some x else none) := by
  rw [bindVar]
  split
  · rename_i hv
    obtain ⟨y, hy⟩ := mem_iff.mp hv
    by_cases hw : w = v
    · rw [hw, hy, Option.some_or]
    · rw [if_neg hw, Option.or_none]
  · rename_i hv
    by_cases hw : w = v
    · rw [hw, lookup_insert, lookup_eq_none.mpr hv, if_pos rfl, Option.none_or]
    · rw [if_neg hw, lookup_insert_of_ne row hw, Option.or_none]

/-- The term a variable meets first. -/
def firstMet (es : List (PatternTerm × Term)) (v : String) : Option Term :=
  (es.find? fun e => e.1 = .var v).map Prod.snd

/-- A variable keeps its value, or takes the term it meets first. -/
theorem lookup_bindAll (es : List (PatternTerm × Term)) (row : Row) (v : String) :
    (bindAll es row).lookup v = (row.lookup v).or (firstMet es v) := by
  induction es generalizing row with
  | nil => exact (Option.or_none).symm
  | cons e es ih =>
    obtain ⟨pt, x⟩ := e
    have hstep : (bindVar pt x row).lookup v =
        (row.lookup v).or (if pt = .var v then some x else none) := by
      cases pt with
      | var w =>
        rw [lookup_bindVar_var]
        simp only [PatternTerm.var.injEq, eq_comm]
      | const _ | name _ _ | triple _ _ _ =>
        rw [if_neg (fun h => by cases h), Option.or_none]; rfl
    rw [bindAll, foldl_cons, ← bindAll, ih, hstep, Option.or_assoc, firstMet, firstMet]
    by_cases h : pt = .var v
    · rw [if_pos h, find?_cons_of_pos (by simpa using h), Option.some_or, Option.map_some]
    · rw [if_neg h, find?_cons_of_neg (by simpa using h), Option.none_or]

theorem firstMet_mem (h : firstMet es v = some x) : (.var v, x) ∈ es := by
  obtain ⟨⟨pt, y⟩, hfind, rfl⟩ := Option.map_eq_some_iff.mp h
  have hpt : pt = .var v := by simpa using find?_some hfind
  rw [← hpt]
  exact mem_of_find?_eq_some hfind

theorem firstMet_eq_none (h : firstMet es v = none) (x : Term) : (.var v, x) ∉ es := by
  intro hmem
  rw [firstMet, Option.map_eq_none_iff, find?_eq_none] at h
  exact h _ hmem (by simp)

theorem extends_bindAll (es : List (PatternTerm × Term)) (row : Row) :
    Extends row (bindAll es row) := by
  intro v x hx
  rw [lookup_bindAll, hx, Option.some_or]

/-- A row that has what a row has, and what the positions meet, has what they
    bind. -/
theorem bindAll_extends (h : Extends row μ) (hes : ∀ v x, (.var v, x) ∈ es → μ.lookup v = some x) :
    Extends (bindAll es row) μ := by
  intro v x hx
  rw [lookup_bindAll, Option.or_eq_some_iff] at hx
  rcases hx with hx | ⟨-, hx⟩
  · exact h v x hx
  · exact hes v x (firstMet_mem hx)

theorem mem_bindAll : v ∈ bindAll es row ↔ v ∈ row ∨ ∃ x, (.var v, x) ∈ es := by
  rw [← lookup_isSome, lookup_bindAll, Option.isSome_or, Bool.or_eq_true, lookup_isSome]
  refine or_congr_right ?_
  constructor
  · intro h
    obtain ⟨x, hx⟩ := Option.isSome_iff_exists.mp h
    exact ⟨x, firstMet_mem hx⟩
  · rintro ⟨x, hx⟩
    rw [Option.isSome_iff_ne_none]
    exact fun hnone => firstMet_eq_none hnone x hx

theorem occurrences_cons (tp : PatternTriple) (tps : List PatternTriple) (t : Triple)
    (ts : List Triple) :
    occurrences (tp :: tps) (t :: ts) = tp.occurrences t ++ occurrences tps ts :=
  rfl

/-! ## Choices -/

/-- The triples the graph yields for a pattern. -/
def fittingTriples (pl : Prologue) (g : Graph) (tp : PatternTriple) (row : Row) : List Triple :=
  match tp with
  | ⟨s, .term p, o⟩ =>
    match storePattern pl row s p o with
    | none => []
    | some pat => g.triples pat
  | ⟨_, .path _, _⟩ => []

/-- The choices the loops go through. -/
def choices (pl : Prologue) (g : Graph) : List PatternTriple → Row → List (List Triple)
  | [], _ => [[]]
  | tp :: tps, row => (fittingTriples pl g tp row).flatMap fun t =>
    (choices pl g tps (bindAll (tp.occurrences t) row)).map (List.cons t)

theorem asSubjectEnd_eq_some {subj : Option Subject} :
    asSubjectEnd r = some subj ↔ r = subj.map TermOf.subject := by
  match r, subj with
  | none, none => exact ⟨fun _ => rfl, fun _ => rfl⟩
  | none, some s => simp [asSubjectEnd]
  | some (.subject t), none | some (.subject t), some s | some (.literal l), none
  | some (.literal l), some s => simp [asSubjectEnd, TermOf.asSubject]

theorem asSubjectEnd_eq_none (h : asSubjectEnd r = none) (s : Subject) :
    ∃ x, r = some x ∧ x ≠ .subject s := by
  match r with
  | some (.literal l) => exact ⟨_, rfl, fun hl => by cases hl⟩
  | some (.subject t) => simp [asSubjectEnd, TermOf.asSubject] at h
  | none => simp [asSubjectEnd] at h

theorem asURIRef_eq_some {u : URIRef} : x.asURIRef = some u ↔ x = u.toTerm := by
  match x with
  | .subject (.uri v) | .subject (.bnode b) | .subject (.triple s p o) | .literal l =>
    simp [TermOf.asURIRef, URIRefOf.toTerm]

theorem toTerm_inj {u v : URIRef} : u.toTerm = v.toTerm ↔ u = v := by
  simp [URIRefOf.toTerm]

theorem asSubject_eq_some {s : Subject} : x.asSubject = some s ↔ x = .subject s := by
  cases x <;> simp [TermOf.asSubject]

theorem asPredicateEnd_eq_some {pred : Option URIRef} :
    asPredicateEnd r = some pred ↔ r = pred.map URIRefOf.toTerm := by
  cases r with
  | none => cases pred <;> simp [asPredicateEnd]
  | some x =>
    rw [asPredicateEnd]
    cases pred with
    | none => simp
    | some u => simp [asURIRef_eq_some]

theorem asPredicateEnd_eq_none (h : asPredicateEnd r = none) (u : URIRef) :
    ∃ x, r = some x ∧ x ≠ u.toTerm := by
  cases r with
  | none => cases h
  | some x =>
    refine ⟨x, rfl, fun hx => ?_⟩
    rw [asPredicateEnd, asURIRef_eq_some.mpr hx] at h
    cases h

/-- The graph is asked for the triples that fit. -/
theorem mem_fittingTriples {s p o : PatternTerm} :
    t ∈ fittingTriples pl g ⟨s, .term p, o⟩ row ↔
      t ∈ g.all ∧ PatternTriple.Fits pl row ⟨s, .term p, o⟩ t := by
  have hfits : PatternTriple.Fits pl row ⟨s, .term p, o⟩ t ↔
      (∀ x, resolvePatternTerm pl row s = some x → x = .subject t.subject) ∧
      (∀ x, resolvePatternTerm pl row p = some x → x = t.predicate.toTerm) ∧
      ∀ x, resolvePatternTerm pl row o = some x → x = t.object := by
    simp [PatternTriple.Fits, PatternTriple.occurrences]
  rw [hfits, fittingTriples, storePattern]
  cases hs : asSubjectEnd (resolvePatternTerm pl row s) with
  | none =>
    obtain ⟨x, hx, hne⟩ := asSubjectEnd_eq_none hs t.subject
    exact ⟨nofun, fun h => absurd (h.2.1 x hx) hne⟩
  | some subj =>
    cases hp : asPredicateEnd (resolvePatternTerm pl row p) with
    | none =>
      obtain ⟨x, hx, hne⟩ := asPredicateEnd_eq_none hp t.predicate
      exact ⟨nofun, fun h => absurd (h.2.2.1 x hx) hne⟩
    | some pred =>
      rw [asSubjectEnd_eq_some.mp hs, asPredicateEnd_eq_some.mp hp]
      refine (g.mem_iff _ t).trans (and_congr_right fun _ => ?_)
      cases subj <;> cases pred <;> cases resolvePatternTerm pl row o <;>
        simp [TriplePatternOf.matches, toTerm_inj, and_assoc]

theorem nodup_fittingTriples (pl : Prologue) (g : Graph) (tp : PatternTriple) (row : Row) :
    (fittingTriples pl g tp row).Nodup := by
  obtain ⟨s, verb, o⟩ := tp
  cases verb with
  | path p => exact nodup_nil
  | term p =>
    rw [fittingTriples]
    cases storePattern pl row s p o with
    | none => exact nodup_nil
    | some pat => exact g.nodup pat

theorem isVarTripleTerm_of_isAtom (h : pt.isAtom = true) : pt.isVarTripleTerm = false := by
  cases pt with
  | triple _ _ _ => cases h
  | var _ | const _ | name _ _ => rfl

theorem bindEnd_eq_some (pl : Prologue) (h : pt.isVarTripleTerm = false) (x : Term) (row : Row) :
    bindEnd pl pt x row = some (bindVar pt x row) := by
  rw [bindEnd, h]
  rfl

/-- Without variables in triple terms, every triple the graph yields is kept, and
    each position binds its variable. -/
theorem matchRows_eq_map (pl : Prologue) (g : Graph) {s p o : PatternTerm}
    (hs : s.isVarTripleTerm = false) (ho : o.isVarTripleTerm = false) (row : Row) :
    matchRows pl g ⟨s, .term p, o⟩ row =
      (fittingTriples pl g ⟨s, .term p, o⟩ row).map fun t =>
        bindAll (PatternTriple.occurrences ⟨s, .term p, o⟩ t) row := by
  have hbind : bindTriple pl s p o row = fun t =>
      some (bindAll (PatternTriple.occurrences ⟨s, .term p, o⟩ t) row) := by
    funext t
    rw [bindTriple, bindEnd_eq_some pl hs, Option.bind_eq_bind, Option.bind_some,
      bindEnd_eq_some pl ho]
    rfl
  rw [matchRows, fittingTriples, hbind]
  cases storePattern pl row s p o with
  | none => rfl
  | some pat => exact congrFun filterMap_eq_map' (g.triples pat)

theorem matchRows_of_isAtomic (pl : Prologue) (g : Graph) (h : tp.isAtomic = true) (row : Row) :
    matchRows pl g tp row =
      (fittingTriples pl g tp row).map fun t => bindAll (tp.occurrences t) row := by
  obtain ⟨s, verb, o⟩ := tp
  cases verb with
  | path p => cases h
  | term p =>
    simp only [PatternTriple.isAtomic, Bool.and_eq_true] at h
    exact matchRows_eq_map pl g (isVarTripleTerm_of_isAtom h.1.1) (isVarTripleTerm_of_isAtom h.2)
      row

theorem mem_choices (h : ∀ tp ∈ tps, tp.isAtomic = true) :
    ts ∈ choices pl g tps row ↔ Fitting pl g tps row ts := by
  induction tps generalizing row ts with
  | nil => rw [choices, List.mem_singleton]; rfl
  | cons tp tps ih =>
    have htp := h tp mem_cons_self
    have hrest : ∀ tp' ∈ tps, tp'.isAtomic = true := fun tp' hmem =>
      h tp' (mem_cons_of_mem _ hmem)
    have hfits : ∀ t, t ∈ fittingTriples pl g tp row ↔ t ∈ g.all ∧ tp.Fits pl row t := by
      obtain ⟨s, verb, o⟩ := tp
      cases verb with
      | path p => cases htp
      | term p => exact fun t => mem_fittingTriples
    simp only [choices, mem_flatMap, mem_map, hfits, ih hrest, Fitting]
    constructor
    · rintro ⟨t, ⟨hall, hf⟩, rest, hr, rfl⟩
      exact ⟨t, rest, rfl, hall, hf, hr⟩
    · rintro ⟨t, rest, rfl, hall, hf, hr⟩
      exact ⟨t, ⟨hall, hf⟩, rest, hr, rfl⟩

theorem nodup_choices (pl : Prologue) (g : Graph) (tps : List PatternTriple) (row : Row) :
    (choices pl g tps row).Nodup := by
  induction tps generalizing row with
  | nil => exact nodup_singleton _
  | cons tp tps ih =>
    rw [choices, nodup_flatMap]
    refine ⟨fun t _ => (ih _).map (cons_injective), ?_⟩
    refine (nodup_fittingTriples pl g tp row).imp fun {t u} htu => ?_
    -- Choices that start with different triples are different.
    intro ts ht hu
    obtain ⟨_, -, rfl⟩ := mem_map.mp ht
    obtain ⟨_, -, heq⟩ := mem_map.mp hu
    exact htu (List.cons.inj heq).1.symm

/-- The rows are those of the fitting choices. -/
theorem bgpSolutions_eq_map_choices (pl : Prologue) (g : Graph) (h : ∀ tp ∈ tps, tp.isAtomic = true)
    (row : Row) :
    bgpSolutions pl g tps row =
      (choices pl g tps row).map fun ts => bindAll (occurrences tps ts) row := by
  induction tps generalizing row with
  | nil => rfl
  | cons tp tps ih =>
    have hrest : ∀ tp' ∈ tps, tp'.isAtomic = true := fun tp' hmem =>
      h tp' (mem_cons_of_mem _ hmem)
    rw [bgpSolutions, matchRows_of_isAtomic pl g (h tp mem_cons_self), flatMap_map,
      choices, map_flatMap]
    refine flatMap_congr fun t _ => ?_
    rw [ih hrest, map_map]
    refine map_congr_left fun ts _ => ?_
    rw [Function.comp_apply, occurrences_cons]
    exact foldl_append.symm

/-! ## Coherent choices -/

/-- What is bound later does not change what is known. -/
theorem resolve_mono (h : Extends row μ) (hx : resolvePatternTerm pl row pt = some x) :
    resolvePatternTerm pl μ pt = some x := by
  induction pt generalizing x with
  | var v => exact h v x hx
  | const t | name pfx loc => exact hx
  | triple s p o ihs ihp iho =>
    simp only [resolvePatternTerm, Option.bind_eq_bind, Option.bind_eq_some_iff] at hx ⊢
    obtain ⟨s', hs, p', hp, o', ho, rest⟩ := hx
    exact ⟨s', ihs hs, p', ihp hp, o', iho ho, rest⟩

theorem forall_occurrences {s p o : PatternTerm} {P : PatternTerm → Prop} (hs : P s) (hp : P p)
    (ho : P o) : ∀ e ∈ PatternTriple.occurrences ⟨s, .term p, o⟩ t, P e.1 := by
  simp [PatternTriple.occurrences, hs, hp, ho]

theorem isAtom_of_mem (h : tp.isAtomic = true) : ∀ e ∈ tp.occurrences t, e.1.isAtom = true := by
  obtain ⟨s, verb, o⟩ := tp
  cases verb with
  | path p => exact nofun
  | term p =>
    simp only [PatternTriple.isAtomic, Bool.and_eq_true] at h
    exact forall_occurrences (P := (·.isAtom = true)) h.1.1 h.1.2 h.2

/-- The graph's triples, one for each pattern, whatever they fit. -/
def OfGraph (g : Graph) (tps : List PatternTriple) (ts : List Triple) : Prop :=
  List.Forall₂ (fun _ t => t ∈ g.all) tps ts

/-- A coherent choice fits from given bindings when it has the constants and the
    values given: what an earlier pattern binds, a later one meets again. -/
theorem fitting_of_coherent (h : ∀ tp ∈ tps, tp.isAtomic = true) (hg : OfGraph g tps ts)
    (hco : Coherent tps ts)
    (hrow : ∀ e ∈ occurrences tps ts, ∀ x, resolvePatternTerm pl row e.1 = some x → x = e.2) :
    Fitting pl g tps row ts := by
  induction hg generalizing row with
  | nil => rfl
  | @cons tp t tps ts ht _ ih =>
    have hhead : ∀ e ∈ tp.occurrences t, e ∈ occurrences (tp :: tps) (t :: ts) :=
      fun e he => mem_append_left _ he
    have htail : ∀ e ∈ occurrences tps ts, e ∈ occurrences (tp :: tps) (t :: ts) :=
      fun e he => mem_append_right _ he
    refine ⟨t, ts, rfl, ht, fun e he => hrow e (hhead e he), ?_⟩
    refine ih (fun tp' hmem => h tp' (mem_cons_of_mem _ hmem))
      (fun pt x y hx hy => hco pt x y (htail _ hx) (htail _ hy)) ?_
    -- A later position: bound before all of this, or by the first pattern.
    rintro ⟨pt, y⟩ he x hx
    cases pt with
    | const u | name pfx loc => exact hrow _ (htail _ he) x hx
    | triple s p o =>
      obtain ⟨e', he', hmem⟩ := mem_flatMap.mp he
      exact absurd (isAtom_of_mem (h _ (mem_cons_of_mem _ (of_mem_zip he').1)) _ hmem)
        Bool.false_ne_true
    | var v =>
      have hlook : (bindAll (tp.occurrences t) row).lookup v = some x := hx
      rw [lookup_bindAll, Option.or_eq_some_iff] at hlook
      rcases hlook with hlook | ⟨-, hfirst⟩
      · exact hrow _ (htail _ he) x hlook
      · exact hco _ x y (hhead _ (firstMet_mem hfirst)) (htail _ he)

theorem Fitting.ofGraph (h : Fitting pl g tps row ts) : OfGraph g tps ts := by
  induction tps generalizing row ts with
  | nil =>
    have hnil : ts = [] := h
    rw [hnil]
    exact List.Forall₂.nil
  | cons tp tps ih =>
    obtain ⟨t, rest, rfl, ht, -, hrest⟩ := h
    exact List.Forall₂.cons ht (ih hrest)

/-- What a choice fits includes the bindings it starts from. -/
theorem Fitting.agrees (h : Fitting pl g tps row ts) :
    ∀ e ∈ occurrences tps ts, ∀ x, resolvePatternTerm pl row e.1 = some x → x = e.2 := by
  induction tps generalizing row ts with
  | nil => exact nofun
  | cons tp tps ih =>
    obtain ⟨t, rest, rfl, -, hfits, hrest⟩ := h
    intro e he x hx
    rcases mem_append.mp he with he | he
    · exact hfits e he x hx
    · exact ih hrest e he x (resolve_mono (extends_bindAll _ row) hx)

/-- The coherent choices in terms that do not depend on the order: triples of the
    graph that agree with each other, the constants and the given bindings. -/
theorem fitting_coherent_iff (hat : ∀ tp ∈ tps, tp.isAtomic = true) :
    Fitting pl g tps row ts ∧ Coherent tps ts ↔
      OfGraph g tps ts ∧ Coherent tps ts ∧
        ∀ e ∈ occurrences tps ts, ∀ x, resolvePatternTerm pl row e.1 = some x → x = e.2 := by
  constructor
  · rintro ⟨hfit, hco⟩
    exact ⟨hfit.ofGraph, hco, hfit.agrees⟩
  · rintro ⟨hg, hco, hrow⟩
    exact ⟨fitting_of_coherent hat hg hco hrow, hco⟩

/-! ## Solutions -/

/-- A variable or a constant; a prefixed name is one if its prefix is known. -/
def PatternTerm.isKnown (pl : Prologue) : PatternTerm → Bool
  | .var _ => true
  | .const _ => true
  | .name pfx loc => (pl.names pfx loc).isSome
  | .triple _ _ _ => false

/-- The pattern is made of variables and constants. -/
def PatternTriple.isSimple (pl : Prologue) : PatternTriple → Bool
  | ⟨s, .term p, o⟩ => s.isKnown pl && p.isKnown pl && o.isKnown pl
  | ⟨_, .path _, _⟩ => false

theorem isAtom_of_isKnown (h : pt.isKnown pl = true) : pt.isAtom = true := by
  cases pt with
  | triple s p o => cases h
  | var v | const t | name pfx loc => rfl

theorem isAtomic_of_isSimple (h : tp.isSimple pl = true) : tp.isAtomic = true := by
  obtain ⟨s, verb, o⟩ := tp
  cases verb with
  | path p => cases h
  | term p =>
    simp only [isSimple, Bool.and_eq_true] at h
    simp only [isAtomic, isAtom_of_isKnown h.1.1, isAtom_of_isKnown h.1.2,
      isAtom_of_isKnown h.2, Bool.and_self]

theorem isKnown_of_mem (h : tp.isSimple pl = true) :
    ∀ e ∈ tp.occurrences t, e.1.isKnown pl = true := by
  obtain ⟨s, verb, o⟩ := tp
  cases verb with
  | path p => exact nofun
  | term p =>
    simp only [PatternTriple.isSimple, Bool.and_eq_true] at h
    exact forall_occurrences (P := (·.isKnown pl = true)) h.1.1 h.1.2 h.2

/-- A pattern becomes a triple when every position becomes what it meets there. -/
theorem subst_eq_some (h : tp.isSimple pl = true) :
    tp.subst pl μ = some t ↔ ∀ e ∈ tp.occurrences t, resolvePatternTerm pl μ e.1 = some e.2 := by
  obtain ⟨s, verb, o⟩ := tp
  cases verb with
  | path p => cases h
  | term p =>
    simp only [PatternTriple.occurrences, mem_cons, not_mem_nil, or_false,
      forall_eq_or_imp, forall_eq, PatternTriple.subst, Option.bind_eq_bind,
      Option.bind_eq_some_iff, asSubject_eq_some, asURIRef_eq_some, Option.pure_def,
      Option.some.injEq]
    constructor
    · rintro ⟨s', ⟨_, hs, rfl⟩, p', ⟨_, hp, rfl⟩, o', ho, rfl⟩
      exact ⟨hs, hp, ho⟩
    · rintro ⟨hs, hp, ho⟩
      exact ⟨_, ⟨_, hs, rfl⟩, _, ⟨_, hp, rfl⟩, _, ho, rfl⟩

theorem mem_vars_iff (h : tp.isSimple pl = true) (t : Triple) (v : String) :
    v ∈ tp.vars ↔ ∃ x, (.var v, x) ∈ tp.occurrences t := by
  have hterm : ∀ pt : PatternTerm, pt.isKnown pl = true → (v ∈ pt.vars ↔ pt = .var v) := by
    intro pt hpt
    cases pt with
    | triple s p o => cases hpt
    | var w => simp [PatternTerm.vars, eq_comm]
    | const u | name pfx loc => simp [PatternTerm.vars]
  obtain ⟨s, verb, o⟩ := tp
  cases verb with
  | path p => cases h
  | term p =>
    simp only [isSimple, Bool.and_eq_true] at h
    simp only [PatternTriple.vars, mem_append, hterm s h.1.1, hterm p h.1.2, hterm o h.2,
      PatternTriple.occurrences, mem_cons, not_mem_nil, or_false, Prod.mk.injEq,
      exists_or, or_assoc]
    simp only [eq_comm, exists_and_left, exists_eq, and_true]

section

variable {init : Row} (hsimple : ∀ tp ∈ tps, tp.isSimple pl = true)

include hsimple

/-- The row of a coherent choice turns every position into what it meets. -/
theorem resolve_bindAll (hco : Coherent tps ts)
    (hrow : ∀ e ∈ occurrences tps ts, ∀ x, resolvePatternTerm pl init e.1 = some x → x = e.2) :
    ∀ e ∈ occurrences tps ts,
      resolvePatternTerm pl (bindAll (occurrences tps ts) init) e.1 = some e.2 := by
  rintro ⟨pt, x⟩ he
  have hknown : pt.isKnown pl = true := by
    obtain ⟨e', he', hmem⟩ := mem_flatMap.mp he
    exact isKnown_of_mem (hsimple _ (of_mem_zip he').1) _ hmem
  cases pt with
  | triple s p o => cases hknown
  | const u => exact congrArg some (hrow _ he u rfl)
  | name pfx loc =>
    obtain ⟨u, hu⟩ := Option.isSome_iff_exists.mp hknown
    have hres : ∀ row, resolvePatternTerm pl row (.name pfx loc) = some u.toTerm := by
      intro row
      rw [resolvePatternTerm, hu, Option.map_some]
    rw [hres, ← hrow _ he _ (hres init)]
  | var v =>
    rw [resolvePatternTerm, lookup_bindAll]
    cases hv : init.lookup v with
    | some y => rw [Option.some_or, ← hrow _ he y hv]
    | none =>
      cases hf : firstMet (occurrences tps ts) v with
      | none => exact absurd he (firstMet_eq_none hf x)
      | some y => rw [Option.none_or, hco _ y x (firstMet_mem hf) he]

/-- Positions determine the triples: two choices of triples that the same row
    turns the patterns into are the same. -/
theorem choice_unique {us : List Triple} (hts : OfGraph g tps ts) (hus : OfGraph g tps us)
    (ht : ∀ e ∈ occurrences tps ts, resolvePatternTerm pl μ e.1 = some e.2)
    (hu : ∀ e ∈ occurrences tps us, resolvePatternTerm pl μ e.1 = some e.2) : ts = us := by
  induction hts generalizing us with
  | nil => cases hus; rfl
  | @cons tp t tps ts _ _ ih =>
    cases hus with
    | @cons _ u _ us _ hus =>
      have htp := hsimple tp mem_cons_self
      have h₁ : tp.subst pl μ = some t :=
        (subst_eq_some htp).mpr fun e he => ht e (mem_append_left _ he)
      have h₂ : tp.subst pl μ = some u :=
        (subst_eq_some htp).mpr fun e he => hu e (mem_append_left _ he)
      rw [Option.some.inj (h₁.symm.trans h₂)]
      rw [ih (fun tp' hmem => hsimple tp' (mem_cons_of_mem _ hmem)) hus
        (fun e he => ht e (mem_append_right _ he))
        (fun e he => hu e (mem_append_right _ he))]

/-- The triples a solution turns the patterns into. -/
theorem exists_choice (h : ∀ tp ∈ tps, ∃ t ∈ g.all, tp.subst pl μ = some t) :
    ∃ ts, OfGraph g tps ts ∧ ∀ e ∈ occurrences tps ts, resolvePatternTerm pl μ e.1 = some e.2 := by
  induction tps with
  | nil => exact ⟨[], List.Forall₂.nil, nofun⟩
  | cons tp tps ih =>
    obtain ⟨t, ht, hsubst⟩ := h tp mem_cons_self
    obtain ⟨ts, hts, hres⟩ := ih (fun tp' hmem => hsimple tp' (mem_cons_of_mem _ hmem))
      (fun tp' hmem => h tp' (mem_cons_of_mem _ hmem))
    refine ⟨t :: ts, List.Forall₂.cons ht hts, fun e he => ?_⟩
    rcases mem_append.mp he with he | he
    · exact (subst_eq_some (hsimple tp mem_cons_self)).mp hsubst e he
    · exact hres e he

theorem mem_vars_occurrences (hts : OfGraph g tps ts) (v : String) :
    (∃ tp ∈ tps, v ∈ tp.vars) ↔ ∃ x, (.var v, x) ∈ occurrences tps ts := by
  induction hts with
  | nil => simp [occurrences]
  | @cons tp t tps ts _ _ ih =>
    have ih := ih fun tp' hmem => hsimple tp' (mem_cons_of_mem _ hmem)
    simp only [mem_cons, exists_eq_or_imp, occurrences_cons, mem_append, exists_or, ih,
      mem_vars_iff (hsimple tp mem_cons_self) t]

/-- The solutions are the rows of the coherent choices. -/
theorem isSolution_iff_choice :
    IsSolution pl g tps init μ ↔ ∃ ts, Fitting pl g tps init ts ∧ Coherent tps ts ∧
      bindAll (occurrences tps ts) init = μ := by
  have hat : ∀ tp ∈ tps, tp.isAtomic = true := fun tp h => isAtomic_of_isSimple (hsimple tp h)
  constructor
  · rintro ⟨hext, hdom, hsubst⟩
    obtain ⟨ts, hg, hres⟩ := exists_choice hsimple hsubst
    -- A solution gives each position one value, so the triples it is made from agree.
    have hco : Coherent tps ts := by
      intro pt x y hx hy
      exact Option.some.inj ((hres _ hx).symm.trans (hres _ hy))
    have hrow : ∀ e ∈ occurrences tps ts, ∀ x,
        resolvePatternTerm pl init e.1 = some x → x = e.2 := by
      intro e he x hx
      exact Option.some.inj ((resolve_mono hext hx).symm.trans (hres e he))
    refine ⟨ts, fitting_of_coherent hat hg hco hrow, hco, ?_⟩
    refine (bindAll_extends hext fun v x hx => hres _ hx).eq fun v hv => ?_
    rw [mem_bindAll, ← mem_vars_occurrences hsimple hg]
    exact (hdom v).mp hv
  · rintro ⟨ts, hfit, hco, rfl⟩
    have hg := hfit.ofGraph
    have hres := resolve_bindAll hsimple hco hfit.agrees
    refine ⟨extends_bindAll _ _, fun v => ?_, ?_⟩
    · rw [mem_bindAll, mem_vars_occurrences hsimple hg]
    · clear hfit hco hat
      -- The row of the whole choice is kept fixed, since each pattern is a part of it.
      generalize bindAll (occurrences tps ts) init = μ at hres
      induction hg with
      | nil => exact nofun
      | @cons tp t tps ts ht _ ih =>
        intro tp' hmem
        rcases mem_cons.mp hmem with rfl | hmem
        · exact ⟨t, ht, (subst_eq_some (hsimple _ mem_cons_self)).mpr
            fun e he => hres e (mem_append_left _ he)⟩
        · exact ih (fun p hp => hsimple p (mem_cons_of_mem _ hp))
            (fun e he => hres e (mem_append_right _ he)) tp' hmem

end

end GoRdf
