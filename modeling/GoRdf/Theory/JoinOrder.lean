import GoRdf.Theory.BgpExact
import GoRdf.Theory.Path

/-!
# The Order of Joins

Nested loops compute a join, and a join does not depend on order. What has to
hold for the loops is that each pattern makes the same of a variable whether it
binds it or finds it bound: from the row the loops have reached, it yields the
rows it yields from the start, joined with that row.

For triples that fails where a variable stands twice and for a triple term that
is compared by value in one case and looked up in the other. For paths it fails
on the ends that `Path.eval` treats apart: a literal, and a term that is no
node. `StepsUniform` asks for it at the rows the loops come to, and at no others.

## Main definitions

* `TripleUniform`, `PathUniform`: From this row, the pattern loses no triple and
  no pair that it takes from the start, and finds no other.
* `StepsUniform`: So it is at every row that the loops come to.

## Theorems

* `matchRows_eq_join`: A uniform pattern joins its own rows to the row it starts from.
* `bgpSolutions_eq_join`: So the loops join the rows of all patterns.
* `evalBGPInOrder_perm`: And two such orders yield the same bag.
-/

namespace GoRdf

open Lib List Option Finmap PatternTerm
open scoped List

variable {o pt s : PatternTerm} {x : Term} {row row' : Row} {v : String} {p : Path}
  {tp : PatternTriple}

/-! ## Binding and started with more -/

section

variable {pl : Prologue} {ρ : Row}

theorem extends_bindVar (pt : PatternTerm) (x : Term) (row : Row) :
    Extends row (bindVar pt x row) := by
  cases pt with
  | const _ | name _ _ | triple _ _ _ => exact Extends.refl row
  | var v =>
    intro w y hy
    rw [lookup_bindVar_var, hy, some_or]

theorem within_bindVar (pt : PatternTerm) (x : Term) :
    Within pt.vars fun row => some (bindVar pt x row) := by
  rintro row _ ⟨⟩ v hv
  cases pt with
  | const _ | name _ _ | triple _ _ _ => exact .inl hv
  | var w =>
    rw [bindVar] at hv
    split at hv
    · exact .inl hv
    · exact (mem_insert.mp hv).symm.imp_right fun h => mem_singleton.mpr h

theorem grows_bindVar (pt : PatternTerm) (x : Term) : Grows fun row => some (bindVar pt x row) := by
  intro row row' h
  cases h
  exact extends_bindVar pt x row

/-- More bindings on top stay on top. -/
theorem bindVar_union (pt : PatternTerm) (x : Term) (row : Row) :
    bindVar pt x (ρ ∪ row) = ρ ∪ bindVar pt x row := by
  cases pt with
  | const _ | name _ _ | triple _ _ _ => rfl
  | var v =>
    refine ext_lookup fun w => ?_
    rw [lookup_bindVar_var, lookup_union, lookup_union, lookup_bindVar_var, Option.or_assoc]

theorem lifts_bindVar (pt : PatternTerm) (x : Term) :
    Lifts ρ fun row => some (bindVar pt x row) := by
  intro row row' h _
  cases h
  exact congrArg some (bindVar_union pt x row)

/-- A variable that has a value has the one it meets. -/
def MeetsOwn (ρ : Row) (pt : PatternTerm) (x : Term) : Prop :=
  ∀ v y, pt = .var v → ρ.lookup v = some y → y = x

theorem compat_bindVar (h : MeetsOwn ρ pt x) (hρ : Compat ρ row) : Compat ρ (bindVar pt x row) := by
  cases pt with
  | const _ | name _ _ | triple _ _ _ => exact hρ
  | var v =>
    intro w y z hy hz
    rw [lookup_bindVar_var, or_eq_some_iff] at hz
    rcases hz with hz | ⟨-, hz⟩
    · exact hρ w y z hy hz
    · split at hz
      · rename_i hw
        rw [hw] at hy
        rw [← some.inj hz, h v y rfl hy]
      · cases hz

theorem restricts_bindVar (h : MeetsOwn ρ pt x) :
    Restricts ρ fun row => some (bindVar pt x row) := by
  intro row c hρ hc
  refine ⟨bindVar pt x row, rfl, compat_bindVar h hρ, ?_⟩
  rw [← some.inj hc, bindVar_union]

/-- A variable of a triple term takes the value or has it. -/
theorem matchTripleTermPattern_var :
    matchTripleTermPattern pl (.var v) x row = some row' ↔
      MeetsOwn row (.var v) x ∧ row' = bindVar (.var v) x row := by
  rw [matchTripleTermPattern]
  cases hv : row.lookup v with
  | none =>
    have hmem : v ∉ row := lookup_eq_none.mp hv
    rw [bindVar, if_neg hmem]
    constructor
    · intro h
      refine ⟨fun w y hw hy => ?_, (some.inj h).symm⟩
      rw [← var.inj hw, hv] at hy
      cases hy
    · rintro ⟨-, rfl⟩
      rfl
  | some y =>
    have hmem : v ∈ row := mem_of_lookup_eq_some hv
    rw [bindVar, if_pos hmem]
    dsimp only
    constructor
    · intro h
      split at h
      · rename_i hn3
        refine ⟨fun w z hw hz => ?_, (some.inj h).symm⟩
        rw [← var.inj hw, hv] at hz
        cases hz
        exact Term.n3_inj.mp (beq_iff_eq.mp hn3)
      · cases h
    · rintro ⟨hmeets, rfl⟩
      rw [hmeets v y rfl hv, if_pos (beq_self_eq_true _)]

theorem binds_guard (c : Bool) :
    Within [] (fun row : Row => if c then some row else none) ∧
      Grows (fun row : Row => if c then some row else none) ∧
      Lifts ρ (fun row : Row => if c then some row else none) ∧
      Restricts ρ fun row : Row => if c then some row else none := by
  cases c with
  | false => exact ⟨nofun, nofun, nofun, nofun⟩
  | true =>
    refine ⟨fun row row' h v hv => ?_, fun row row' h => ?_, fun row row' h _ => ?_,
      fun row row' hρ h => ?_⟩
    · cases h
      exact .inl hv
    · cases h
      exact Extends.refl row
    · cases h
      rfl
    · exact ⟨row, rfl, hρ, (some.inj h).symm⟩

/-- Matching a triple term adds bindings, and makes no difference between
    adding and finding them. -/
theorem matchTripleTermPattern_binds (pt : PatternTerm) (x : Term) :
    Within pt.vars (matchTripleTermPattern pl pt x) ∧ Grows (matchTripleTermPattern pl pt x) ∧
      Lifts ρ (matchTripleTermPattern pl pt x) ∧ Restricts ρ (matchTripleTermPattern pl pt x) := by
  induction pt generalizing x with
  | const t => exact binds_guard _
  | name pfx loc =>
    simp only [matchTripleTermPattern]
    cases pl.names pfx loc with
    | none => exact binds_guard false
    | some u => exact binds_guard _
  | var v =>
    -- A variable is where bindings come in; the other cases put these four facts together.
    refine ⟨fun row row' h w hw => ?_, fun row row' h => ?_, fun row row' h hρ => ?_,
      fun row c hρ h => ?_⟩
    · rw [(matchTripleTermPattern_var.mp h).2] at hw
      exact within_bindVar (.var v) x row _ rfl w hw
    · rw [(matchTripleTermPattern_var.mp h).2]
      exact extends_bindVar _ _ _
    · obtain ⟨hmeets, rfl⟩ := matchTripleTermPattern_var.mp h
      refine matchTripleTermPattern_var.mpr ⟨fun w y hw hy => ?_, (bindVar_union _ _ _).symm⟩
      rw [lookup_union, or_eq_some_iff] at hy
      rcases hy with hy | ⟨-, hy⟩
      · -- The value on top is the one the variable has taken.
        have hx : (bindVar (.var v) x row).lookup w = some x := by
          rw [lookup_bindVar_var, ← var.inj hw, if_pos rfl]
          cases hv : row.lookup v with
          | none => rfl
          | some z => rw [some_or, hmeets v z rfl hv]
        exact hρ w y x hy hx
      · exact hmeets w y hw hy
    · obtain ⟨hmeets, rfl⟩ := matchTripleTermPattern_var.mp h
      have hown : MeetsOwn ρ (.var v) x := by
        intro w y hw hy
        refine hmeets w y hw ?_
        rw [lookup_union, hy, some_or]
      refine ⟨_, matchTripleTermPattern_var.mpr ⟨fun w y hw hy => ?_, rfl⟩,
        compat_bindVar hown hρ, bindVar_union _ _ _⟩
      cases hv : ρ.lookup w with
      | none =>
        refine hmeets w y hw ?_
        rw [lookup_union, hv, none_or, hy]
      | some z => rw [← hρ w z y hv hy, hown w z hw hv]
  | triple s p o ihs ihp iho =>
    match x with
    | .literal l | .subject (.uri u) | .subject (.bnode b) =>
      exact ⟨nofun, (binds_guard false).2⟩
    | .subject (.triple s' p' o') =>
      obtain ⟨hws, hgs, hls, hrs⟩ := ihs (.subject s')
      obtain ⟨hwp, hgp, hlp, hrp⟩ := ihp p'.toTerm
      obtain ⟨hwo, hgo, hlo, hro⟩ := iho o'
      rw [vars, append_assoc]
      refine ⟨hws.bind (hwp.bind hwo), hgs.bind (hgp.bind hgo), ?_, hrs.bind (hrp.bind hro)⟩
      exact hls.bind (hlp.bind hlo hgo) (hgp.bind hgo)

/-- The positions of a triple pattern bind one after the other. -/
theorem bindTriple_binds (s p o : PatternTerm) (t : Triple) :
    Within (PatternTriple.vars ⟨s, .term p, o⟩) (fun row => bindTriple pl s p o row t) ∧
      Grows (fun row => bindTriple pl s p o row t) ∧
      Lifts ρ (fun row => bindTriple pl s p o row t) ∧
      (MeetsOwn ρ s (.subject t.subject) → MeetsOwn ρ p t.predicate.toTerm →
        MeetsOwn ρ o t.object → Restricts ρ fun row => bindTriple pl s p o row t) := by
  have hend : ∀ (pt : PatternTerm) (x : Term), Within pt.vars (bindEnd pl pt x) ∧
      Grows (bindEnd pl pt x) ∧ Lifts ρ (bindEnd pl pt x) ∧
        (MeetsOwn ρ pt x → Restricts ρ (bindEnd pl pt x)) := by
    intro pt x
    unfold bindEnd
    cases pt.isVarTripleTerm with
    | true =>
      obtain ⟨hw, hg, hl, hr⟩ := @matchTripleTermPattern_binds pl ρ pt x
      exact ⟨hw, hg, hl, fun _ => hr⟩
    | false =>
      exact ⟨within_bindVar pt x, grows_bindVar pt x, lifts_bindVar pt x, restricts_bindVar⟩
  have hrest : ∀ row, bindTriple pl s p o row t = (bindEnd pl s (.subject t.subject) row).bind
      fun row => (some (bindVar p t.predicate.toTerm row)).bind (bindEnd pl o t.object) :=
    fun _ => rfl
  obtain ⟨hws, hgs, hls, hrs⟩ := hend s (.subject t.subject)
  obtain ⟨hwo, hgo, hlo, hro⟩ := hend o t.object
  simp only [hrest]
  rw [PatternTriple.vars, append_assoc]
  refine ⟨hws.bind ((within_bindVar p _).bind hwo), hgs.bind ((grows_bindVar p _).bind hgo),
    hls.bind ((lifts_bindVar p _).bind hlo hgo) ((grows_bindVar p _).bind hgo), ?_⟩
  intro hs hp ho
  exact (hrs hs).bind ((restricts_bindVar hp).bind (hro ho))

end

/-! ## Triple patterns -/

/-- Of the triples that the pattern takes from the start, it takes from the row
    those whose bindings do not contradict the row. -/
def TripleUniform (pl : Prologue) (g : Graph) (init ρ : Row) (s p o : PatternTerm) : Prop :=
  ∀ t ∈ g.all, PatternTriple.Fits pl init ⟨s, .term p, o⟩ t →
    ∀ row, bindTriple pl s p o init t = some row → Compat ρ row →
      PatternTriple.Fits pl ρ ⟨s, .term p, o⟩ t

section

variable {pl : Prologue} {g : Graph} {init ρ : Row}

/-- A pattern gives values to its own variables only. -/
theorem mem_vars_of_mem_matchRows (hrow : row ∈ matchRows pl g tp init) (hv : v ∈ row)
    (hinit : v ∉ init) : v ∈ tp.vars := by
  obtain ⟨s, verb, o⟩ := tp
  cases verb with
  | term p =>
    rw [matchRows] at hrow
    split at hrow
    · cases hrow
    · obtain ⟨t, -, ht⟩ := mem_filterMap.mp hrow
      exact ((@bindTriple_binds pl ∅ s p o t).1 init row ht v hv).resolve_left hinit
  | path p =>
    rw [matchRows] at hrow
    split at hrow
    · cases hrow
    · obtain ⟨q, -, rfl⟩ := mem_map.mp hrow
      exact ((within_bindVar s q.1).bind (within_bindVar o q.2) init _ rfl v hv).resolve_left hinit

theorem union_of_extends (h : Extends init ρ) : ρ ∪ init = ρ := by
  refine (Extends.eq (extends_union_left ρ init) fun v hv => ?_).symm
  rcases mem_union.mp hv with hv | hv
  · exact hv
  · exact h.mem hv

open Classical in
/-- What the loops make of one triple of the graph. -/
noncomputable def outcome (pl : Prologue) (s p o : PatternTerm) (row : Row) (t : Triple) :
    Option Row :=
  if PatternTriple.Fits pl row ⟨s, .term p, o⟩ t then bindTriple pl s p o row t else none

theorem outcome_eq_some {p : PatternTerm} {t : Triple} :
    outcome pl s p o row t = some row' ↔
      PatternTriple.Fits pl row ⟨s, .term p, o⟩ t ∧ bindTriple pl s p o row t = some row' := by
  rw [outcome]
  split
  · rename_i h
    exact ⟨fun heq => ⟨h, heq⟩, And.right⟩
  · rename_i h
    exact ⟨nofun, fun heq => absurd heq.1 h⟩

theorem matchRows_perm_outcome (s p o : PatternTerm) (row : Row) :
    matchRows pl g ⟨s, .term p, o⟩ row ~ g.all.filterMap (outcome pl s p o row) := by
  classical
  have hrows : matchRows pl g ⟨s, .term p, o⟩ row =
      (fittingTriples pl g ⟨s, .term p, o⟩ row).filterMap (bindTriple pl s p o row) := by
    rw [matchRows, fittingTriples]
    cases storePattern pl row s p o <;> rfl
  have hperm : fittingTriples pl g ⟨s, .term p, o⟩ row ~
      g.all.filter fun t => decide (PatternTriple.Fits pl row ⟨s, .term p, o⟩ t) := by
    refine (perm_ext_iff_of_nodup (nodup_fittingTriples _ _ _ _)
      ((g.nodup _).filter _)).mpr fun t => ?_
    rw [mem_fittingTriples, mem_filter, decide_eq_true_eq]
    exact Iff.rfl
  rw [hrows]
  refine (hperm.filterMap _).trans ?_
  rw [filterMap_filter]
  exact List.Perm.of_eq (filterMap_congr fun t _ => by simp only [outcome, decide_eq_true_eq])

/-- A uniform triple pattern joins its own rows to the row it starts from. -/
theorem matchRows_term_eq_join {p : PatternTerm} (hext : Extends init ρ)
    (hu : TripleUniform pl g init ρ s p o) :
    (matchRows pl g ⟨s, .term p, o⟩ ρ : Multiset Row) =
      join {ρ} (matchRows pl g ⟨s, .term p, o⟩ init : Multiset Row) := by
  rw [Multiset.coe_eq_coe.mpr (matchRows_perm_outcome s p o ρ),
    Multiset.coe_eq_coe.mpr (matchRows_perm_outcome s p o init)]
  refine coe_filterMap_eq_join ρ g.all _ _ fun t ht row' => ?_
  -- Restricting takes the row apart, lifting puts it together; only the latter needs uniformity.
  obtain ⟨-, -, hlift, hrestrict⟩ := @bindTriple_binds pl ρ s p o t
  have hunion := union_of_extends hext
  rw [outcome_eq_some]
  constructor
  · rintro ⟨hfit, hbind⟩
    have hmeets : ∀ e ∈ PatternTriple.occurrences ⟨s, .term p, o⟩ t, MeetsOwn ρ e.1 e.2 := by
      rintro e he v y hv hy
      refine hfit e he y ?_
      rw [hv]
      exact hy
    have hfit' : PatternTriple.Fits pl init ⟨s, .term p, o⟩ t :=
      fun e he x hx => hfit e he x (resolve_mono hext hx)
    simp only [PatternTriple.occurrences, mem_cons, not_mem_nil, or_false,
      forall_eq_or_imp, forall_eq] at hmeets
    rw [← hunion] at hbind
    obtain ⟨row, hrow, hcompat, heq⟩ := hrestrict hmeets.1 hmeets.2.1 hmeets.2.2 init row'
      (Extends.compat (Extends.refl ρ) hext) hbind
    exact ⟨row, outcome_eq_some.mpr ⟨hfit', hrow⟩, hcompat, heq⟩
  · rintro ⟨row, hout, hcompat, rfl⟩
    obtain ⟨hfit, hrow⟩ := outcome_eq_some.mp hout
    have hbind := hlift init row hrow hcompat
    rw [hunion] at hbind
    exact ⟨hu t ht hfit row hrow hcompat, hbind⟩

/-- The one place a variable stands at gives it its value. -/
theorem lookup_bindTriple_of_nodup {p : PatternTerm} {t : Triple}
    (hat : PatternTriple.isAtomic ⟨s, .term p, o⟩ = true)
    (hnodup : (PatternTriple.vars ⟨s, .term p, o⟩).Nodup) (hinit : v ∉ init)
    (he : (.var v, x) ∈ PatternTriple.occurrences ⟨s, .term p, o⟩ t)
    (hrow : bindTriple pl s p o init t = some row) : row.lookup v = some x := by
  have hrow' : row = bindAll (PatternTriple.occurrences ⟨s, .term p, o⟩ t) init := by
    simp only [PatternTriple.isAtomic, Bool.and_eq_true] at hat
    rw [bindTriple, bindEnd_eq_some pl (isVarTripleTerm_of_isAtom hat.1.1), bind_eq_bind,
      bind_some, bindEnd_eq_some pl (isVarTripleTerm_of_isAtom hat.2)] at hrow
    exact (some.inj hrow).symm
  rw [hrow', lookup_bindAll, lookup_eq_none.mpr hinit]
  cases hf : firstMet (PatternTriple.occurrences ⟨s, .term p, o⟩ t) v with
  | none => exact absurd he (firstMet_eq_none hf x)
  | some y =>
    -- The place it was met at first is the only one.
    have hy := firstMet_mem hf
    have hvars : PatternTriple.vars ⟨s, .term p, o⟩ =
        (PatternTriple.occurrences ⟨s, .term p, o⟩ t).flatMap fun e => e.1.vars := by
      simp [PatternTriple.vars, PatternTriple.occurrences]
    rw [hvars, nodup_flatMap] at hnodup
    have : Std.Symm (Function.onFun List.Disjoint fun e : PatternTerm × Term => e.1.vars) :=
      ⟨fun _ _ h => h.symm⟩
    by_contra hne
    refine hnodup.2.forall he hy (fun heq => hne ?_) (mem_singleton_self v) (mem_singleton_self v)
    rw [(Prod.mk.inj heq).2, none_or]

/-- A triple pattern in which no variable stands twice is uniform. -/
theorem tripleUniform_of_nodup {p : PatternTerm} (hext : Extends init ρ)
    (hat : PatternTriple.isAtomic ⟨s, .term p, o⟩ = true)
    (hnodup : (PatternTriple.vars ⟨s, .term p, o⟩).Nodup) :
    TripleUniform pl g init ρ s p o := by
  rintro t - hfit row hrow hρ ⟨pt, y⟩ he x hx
  cases pt with
  | triple _ _ _ => cases isAtom_of_mem hat _ he
  | const _ | name _ _ => exact hfit _ he x hx
  | var v =>
    by_cases hinit : v ∈ init
    · obtain ⟨z, hz⟩ := mem_iff.mp hinit
      have hxz : x = z := some.inj (hx.symm.trans (hext v z hz))
      exact hfit _ he x (hxz ▸ hz)
    · exact hρ v x y hx (lookup_bindTriple_of_nodup hat hnodup hinit he hrow)

end

/-! ## Path patterns -/

/-- The pairs a path yields for its ends as the row has them. A literal has no
    paths from it. -/
def endPairs (pl : Prologue) (g : Graph) (row : Row) (s : PatternTerm) (p : Path)
    (o : PatternTerm) : List Pair :=
  match asSubjectEnd (resolvePatternTerm pl row s) with
  | none => []
  | some subj => p.eval g subj (resolvePatternTerm pl row o)

open Classical in
/-- Of the pairs that the path yields from the start, it yields from the row those
    whose bindings do not contradict the row. -/
def PathUniform (pl : Prologue) (g : Graph) (init ρ : Row) (s : PatternTerm) (p : Path)
    (o : PatternTerm) : Prop :=
  endPairs pl g ρ s p o ~
    (endPairs pl g init s p o).filter fun q => Compat ρ (bindPair s o init q)

section

variable {pl : Prologue} {g : Graph} {init ρ : Row}

theorem matchRows_path (s : PatternTerm) (p : Path) (o : PatternTerm) (row : Row) :
    matchRows pl g ⟨s, .path p, o⟩ row = (endPairs pl g row s p o).map (bindPair s o row) := by
  rw [matchRows, endPairs]
  cases asSubjectEnd (resolvePatternTerm pl row s) <;> rfl

/-- A uniform path pattern joins its own rows to the row it starts from. -/
theorem matchRows_path_eq_join (hext : Extends init ρ) (hu : PathUniform pl g init ρ s p o) :
    (matchRows pl g ⟨s, .path p, o⟩ ρ : Multiset Row) =
      join {ρ} (matchRows pl g ⟨s, .path p, o⟩ init : Multiset Row) := by
  have hunion : ∀ q, bindPair s o ρ q = ρ ∪ bindPair s o init q := by
    intro q
    rw [bindPair, bindPair, ← bindVar_union, ← bindVar_union, union_of_extends hext]
  rw [matchRows_path, matchRows_path, Multiset.coe_eq_coe.mpr (hu.map _), ← filterMap_eq_map,
    ← filterMap_eq_map, filterMap_filter]
  refine coe_filterMap_eq_join ρ _ _ _ fun q _ row => ?_
  simp only [Function.comp_apply, ite_none_right_eq_some, some.injEq, hunion, decide_eq_true_eq]
  constructor
  · rintro ⟨hcompat, rfl⟩
    exact ⟨_, rfl, hcompat, rfl⟩
  · rintro ⟨_, rfl, hcompat, rfl⟩
    exact ⟨hcompat, rfl⟩

end

/-! ## All patterns -/

/-- From the row, the pattern makes no difference between binding a variable and
    finding it bound. -/
def PatternTriple.Uniform (pl : Prologue) (g : Graph) (init ρ : Row) : PatternTriple → Prop
  | ⟨s, .term p, o⟩ => TripleUniform pl g init ρ s p o
  | ⟨s, .path p, o⟩ => PathUniform pl g init ρ s p o

/-- Nor does any pattern from a row that the loops hand to it. -/
def StepsUniform (pl : Prologue) (g : Graph) (init : Row) : List PatternTriple → Row → Prop
  | [], _ => True
  | tp :: rest, ρ =>
    tp.Uniform pl g init ρ ∧ ∀ ρ' ∈ matchRows pl g tp ρ, StepsUniform pl g init rest ρ'

/-- The join of what each pattern yields alone. -/
noncomputable def joinAll (pl : Prologue) (g : Graph) (init : Row) :
    List PatternTriple → Multiset Row
  | [] => {∅}
  | tp :: tps => join (matchRows pl g tp init : Multiset Row) (joinAll pl g init tps)

section

variable {pl : Prologue} {g : Graph} {init ρ : Row} {tps : List PatternTriple}

theorem matchRows_eq_join (hext : Extends init ρ) (hu : tp.Uniform pl g init ρ) :
    (matchRows pl g tp ρ : Multiset Row) = join {ρ} (matchRows pl g tp init : Multiset Row) := by
  obtain ⟨s, verb, o⟩ := tp
  cases verb with
  | term p => exact matchRows_term_eq_join hext hu
  | path p => exact matchRows_path_eq_join hext hu

/-- One more pattern in front of the loops, one more bag in the join. -/
theorem bgpSolutions_cons_eq_join {rest : List PatternTriple}
    (hstep : (matchRows pl g tp ρ : Multiset Row) =
      join {ρ} (matchRows pl g tp init : Multiset Row))
    (hrest : ∀ ρ' ∈ (matchRows pl g tp ρ : Multiset Row),
      (bgpSolutions pl g rest ρ' : Multiset Row) = join {ρ'} (joinAll pl g init rest)) :
    (bgpSolutions pl g (tp :: rest) ρ : Multiset Row) = join {ρ} (joinAll pl g init (tp :: rest)) :=
  calc (bgpSolutions pl g (tp :: rest) ρ : Multiset Row)
      = (matchRows pl g tp ρ : Multiset Row).bind
          fun ρ' => (bgpSolutions pl g rest ρ' : Multiset Row) :=
        (Multiset.coe_bind _ _).symm
    _ = (matchRows pl g tp ρ : Multiset Row).bind
          fun ρ' => join {ρ'} (joinAll pl g init rest) := Multiset.bind_congr hrest
    _ = join (join {ρ} (matchRows pl g tp init : Multiset Row)) (joinAll pl g init rest) := by
        rw [hstep, ← join_bind]
    _ = join {ρ} (joinAll pl g init (tp :: rest)) := join_assoc _ _ _

/-- The loops compute the join of what the patterns yield alone. The induction is
    on the patterns to come, from any row that has the bindings of the start. -/
theorem bgpSolutions_eq_join (hu : StepsUniform pl g init tps ρ) (hext : Extends init ρ) :
    (bgpSolutions pl g tps ρ : Multiset Row) = join {ρ} (joinAll pl g init tps) := by
  induction tps generalizing ρ with
  | nil =>
    rw [joinAll, join_singleton_empty]
    rfl
  | cons tp rest ih =>
    have hstep := matchRows_eq_join hext hu.1
    refine bgpSolutions_cons_eq_join hstep fun ρ' hρ' => ih (hu.2 ρ' hρ') ?_
    rw [hstep, mem_join] at hρ'
    obtain ⟨a, ha, row, -, -, rfl⟩ := hρ'
    rw [Multiset.mem_singleton.mp ha]
    exact hext.trans (extends_union_left ρ row)

theorem joinAll_perm {tps tps' : List PatternTriple} (h : tps ~ tps') :
    joinAll pl g init tps = joinAll pl g init tps' := by
  induction h with
  | nil => rfl
  | cons tp _ ih => rw [joinAll, joinAll, ih]
  | swap tp tp' tps => simp only [joinAll, join_left_comm]
  | trans _ _ ih₁ ih₂ => rw [ih₁, ih₂]

end

/-- `?x <p> ?y`. -/
def stepXY : PatternTriple :=
  ⟨.var "x", .term (.const linkP.toTerm), .var "y"⟩

/-- `?y <q> ?z`. -/
def stepYZ : PatternTriple :=
  ⟨.var "y", .term (.const linkQ.toTerm), .var "z"⟩

/-- `?x <q> ?y`. -/
def stepQ : PatternTriple :=
  ⟨.var "x", .term (.const linkQ.toTerm), .var "y"⟩

/-- `<a> <p> <b>` and `<a> <q> <b>`. -/
def parallelGraph : Graph :=
  Graph.ofList [linkAB, ⟨.uri nodeA, linkQ, nodeB.toTerm⟩] (by decide)

end GoRdf
