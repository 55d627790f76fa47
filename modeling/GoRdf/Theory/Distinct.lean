import GoRdf.Theory.Pushdown
import GoRdf.Theory.TermKey
import GoRdf.Lib.Search
import GoRdf.Theory.Endpoint

/-!
# `SELECT DISTINCT`

Repetitions are removed by a text over the variables of the `SELECT` clause, and
the projection to these variables comes after. For a list of variables the text
identifies what the projection shows, so the rows are those of the query without
`DISTINCT`, each once.

For `SELECT *` the text is over all a solution binds. That includes the
variables that the parser makes up for blank nodes, collections and reifiers,
which no projection shows. Two solutions that only differ there both stay.

## Main definitions

* `selectSolutions`: The solutions that `DISTINCT` is applied to.
* `VarName`: What can be the name of a variable.

## Theorems

* `solutionKey_some`, `solutionKey_none`: What the text identifies.
* `distinct_rows_iff`: When the rows are the projected solutions, each once.
-/

namespace GoRdf

open Lib List Finmap

/-! ## The key of a solution -/

/-- The names of variables have no equality sign in them. -/
def VarName (v : String) : Prop :=
  '=' ∉ v.toList

/-- A binding as the key writes it. -/
def bindingText (e : String × Term) : List Char :=
  e.1.toList ++ '=' :: e.2.n3

/-- Bindings as the key writes them. -/
def bindingsText (es : List (String × Term)) : List Char :=
  ['|'].intercalate (es.map bindingText)

theorem bindingText_append_inj {e e' : String × Term} (he : VarName e.1) (he' : VarName e'.1)
    {r r' : List Char} (hr : Stops (isStop iriChar) r) (hr' : Stops (isStop iriChar) r')
    (h : bindingText e ++ r = bindingText e' ++ r') : e = e' ∧ r = r' := by
  obtain ⟨v, x⟩ := e
  obtain ⟨v', x'⟩ := e'
  unfold bindingText at h
  rw [append_assoc, append_assoc, cons_append] at h
  have hno : ∀ {w : String}, VarName w → ∀ c ∈ w.toList, (c == '=') = false := by
    intro w hw c hc
    rw [beq_eq_false_iff_ne]
    rintro rfl
    exact hw hc
  have hstop : ∀ r, Stops (· == '=') ('=' :: r) := Stops.cons rfl
  rcases append_inj_of_stops (hno he) (hno he') (hstop _) (hstop _) h with ⟨hv, hrest⟩
  rcases TermOf.n3_append_inj (by decide) (by decide) x x' hr hr' (List.cons.inj hrest).2
    with ⟨hx, hr⟩
  exact ⟨Prod.ext (String.toList_inj.mp hv) hx, hr⟩

/-- The bindings can be read off the text again. -/
theorem bindingsText_cons (e : String × Term) (es : List (String × Term)) :
    ∃ r, Stops (isStop iriChar) r ∧ bindingsText (e :: es) = bindingText e ++ r ∧
      (es = [] ∧ r = [] ∨ es ≠ [] ∧ r = '|' :: bindingsText es) := by
  cases es with
  | nil => exact ⟨[], Stops.nil _, by simp [bindingsText, List.intercalate], .inl ⟨rfl, rfl⟩⟩
  | cons f es => exact ⟨_, Stops.cons (by decide) _, rfl, .inr ⟨cons_ne_nil _ _, rfl⟩⟩

theorem bindingsText_injective : ∀ {es es' : List (String × Term)}, (∀ e ∈ es, VarName e.1) →
    (∀ e ∈ es', VarName e.1) → bindingsText es = bindingsText es' → es = es'
  | [], [], _, _, _ => rfl
  | [], e' :: es', _, _, h => by
    cases es' <;> simp [bindingsText, bindingText, List.intercalate] at h
  | e :: es, [], _, _, h => by
    cases es <;> simp [bindingsText, bindingText, List.intercalate] at h
  | e :: es, e' :: es', hes, hes', h => by
    obtain ⟨r, hr, heq, hcase⟩ := bindingsText_cons e es
    obtain ⟨r', hr', heq', hcase'⟩ := bindingsText_cons e' es'
    rw [heq, heq'] at h
    obtain ⟨he, rfl⟩ := bindingText_append_inj (hes e (by simp)) (hes' e' (by simp)) hr hr' h
    rcases hcase with ⟨rfl, rfl⟩ | ⟨-, rfl⟩
    · rw [he, (hcase'.resolve_right fun h => nomatch h.2).1]
    · have hrest := (hcase'.resolve_left fun h => nomatch h.2).2
      rw [he, bindingsText_injective (fun g hg => hes g (mem_cons_of_mem _ hg))
        (fun g hg => hes' g (mem_cons_of_mem _ hg)) (List.cons.inj hrest).2]

/-- The bindings that a key over variables has. -/
def boundTo (vs : List String) (row : Row) : List (String × Term) :=
  vs.filterMap fun v => (row.lookup v).map (Prod.mk v)

theorem mem_boundTo {vs : List String} {row : Row} {e : String × Term} :
    e ∈ boundTo vs row ↔ e.1 ∈ vs ∧ row.lookup e.1 = some e.2 := by
  obtain ⟨v, x⟩ := e
  simp only [boundTo, mem_filterMap, Option.map_eq_some_iff, Prod.mk.injEq]
  constructor
  · rintro ⟨w, hw, y, hy, rfl, rfl⟩
    exact ⟨hw, hy⟩
  · rintro ⟨hv, hx⟩
    exact ⟨v, hv, x, hx, rfl, rfl⟩

theorem toList_part (e : String × Term) :
    (e.1 ++ "=" ++ String.ofList e.2.n3).toList = bindingText e := by
  simp [bindingText]

theorem toList_solutionKey_some (vs : List String) (row : Row) :
    (solutionKey (some vs) row).toList = bindingsText (boundTo vs row) := by
  rw [solutionKey, String.toList_intercalate, bindingsText, boundTo, map_filterMap, map_filterMap]
  congr 1
  refine filterMap_congr fun v _ => ?_
  cases row.lookup v with
  | none => rfl
  | some x => exact congrArg some (toList_part (v, x))

theorem visible_eq_iff {vars : Option (List String)} {a b : Row} :
    visible vars a = visible vars b ↔ ∀ v, Shows vars v → a.lookup v = b.lookup v := by
  constructor
  · intro h v hv
    have hlook := congrArg (Finmap.lookup v) h
    rwa [lookup_visible, lookup_visible, if_pos hv, if_pos hv] at hlook
  · intro h
    refine ext_lookup fun v => ?_
    rw [lookup_visible, lookup_visible]
    by_cases hv : Shows vars v
    · rw [if_pos hv, if_pos hv, h v hv]
    · rw [if_neg hv, if_neg hv]

/-- The key over a list of variables identifies what is bound to them. -/
theorem solutionKey_some {vs : List String} (hvs : ∀ v ∈ vs, VarName v) {a b : Row} :
    solutionKey (some vs) a = solutionKey (some vs) b ↔
      visible (some vs) a = visible (some vs) b := by
  have hnamed : ∀ row, ∀ e ∈ boundTo vs row, VarName e.1 :=
    fun row e he => hvs e.1 (mem_boundTo.mp he).1
  rw [← String.toList_inj, toList_solutionKey_some, toList_solutionKey_some, visible_eq_iff]
  constructor
  · intro h v hv
    refine Option.ext fun x => ?_
    have hmem := congrArg ((v, x) ∈ ·) (bindingsText_injective (hnamed a) (hnamed b) h)
    simp only [mem_boundTo, show v ∈ vs from hv, true_and, eq_iff_iff] at hmem
    exact hmem
  · intro h
    refine congrArg bindingsText (filterMap_congr fun v hv => ?_)
    rw [h v hv]

/-- The texts of a key over all variables, in the order of the texts, are those of the
    bindings in some order. -/
theorem exists_bindings (row : Row) :
    ∃ es : List (String × Term), (solutionKey none row).toList = bindingsText es ∧
      ∀ e, e ∈ es ↔ row.lookup e.1 = some e.2 := by
  let part := fun e : Sigma fun _ : String => Term => e.1 ++ "=" ++ String.ofList e.2.n3
  obtain ⟨l, hl⟩ := Quot.exists_rep row.entries
  have hperm : (sortStrings (row.entries.map part)).Perm (l.map part) := by
    rw [← Multiset.coe_eq_coe, sortStrings, Multiset.sort_eq, ← hl]
    rfl
  obtain ⟨es, hes, hmap⟩ := exists_perm_map hperm
  refine ⟨es.map fun e => (e.1, e.2), ?_, ?_⟩
  · rw [solutionKey, String.toList_intercalate, bindingsText, map_map]
    rw [← hmap, map_map]
    congr 1
    exact map_congr_left fun e _ => toList_part (e.1, e.2)
  · rintro ⟨v, x⟩
    rw [Finmap.lookup_eq_some_iff, ← hl]
    simp [hes.mem_iff]

/-- The key over all variables identifies the solution. -/
theorem solutionKey_none {a b : Row} (ha : ∀ v ∈ a, VarName v) (hb : ∀ v ∈ b, VarName v) :
    solutionKey none a = solutionKey none b ↔ a = b := by
  obtain ⟨es, hkey, hes⟩ := exists_bindings a
  obtain ⟨es', hkey', hes'⟩ := exists_bindings b
  have hmem : ∀ {row : Row} {e : String × Term}, row.lookup e.1 = some e.2 → e.1 ∈ row :=
    fun h => mem_iff.mpr ⟨_, h⟩
  refine ⟨fun h => ?_, congrArg _⟩
  rw [← String.toList_inj, hkey, hkey'] at h
  have heq := bindingsText_injective (fun e he => ha e.1 (hmem ((hes e).mp he)))
    (fun e he => hb e.1 (hmem ((hes' e).mp he))) h
  refine ext_lookup fun v => Option.ext fun x => ?_
  rw [← hes (v, x), ← hes' (v, x), heq]

/-! ## The rows -/

/-- Nothing but the first of every key. -/
theorem uniqueBy_eq_fresh {α : Type} (key : α → String) (xs : List α) :
    uniqueBy key xs = fresh key [] xs := by
  have hloop : ∀ (xs : List α) (seen : List String) (out : List α), (xs.foldl
        (fun acc x => if acc.1.contains (key x) then acc else (key x :: acc.1, acc.2 ++ [x]))
        ((seen, out) : List String × List α)).2 = out ++ fresh key seen xs := by
    intro xs
    induction xs with
    | nil => exact fun seen out => (append_nil out).symm
    | cons x xs ih =>
      intro seen out
      rw [foldl_cons, fresh]
      by_cases hx : key x ∈ seen
      · rw [if_pos hx, if_pos (contains_iff_mem.mpr hx), ih]
      · rw [if_neg hx, if_neg fun h => hx (contains_iff_mem.mp h), ih, append_assoc]
        rfl
  exact hloop xs [] []

/-- The solutions that `DISTINCT` is applied to. -/
def selectSolutions (env : Env) (ctx : EvalCtx) (g : Graph) (q : Query) (init : Row) : List Row :=
  let solutions := allSolutions env ctx g q.pattern init
  let solutions :=
    if !q.groupBy.isEmpty || hasAggregates q then evalAggregation env ctx g q solutions
    else solutions
  let solutions := solutions.map fun s => projectExprs env ctx g q.projectExprs s
  if q.orderBy.isEmpty then solutions
  else env.scalars.sortFunc (fun a b => compareRows env ctx g q.orderBy a b) solutions

/-- The rows that `OFFSET` and `LIMIT` are applied to: all of them, where there is neither. -/
noncomputable def distinctRows (env : Env) (ctx : EvalCtx) (g : Graph) (q : Query) (init : Row) :
    List Row :=
  (uniqueBy (solutionKey q.modifiers.vars) (selectSolutions env ctx g q init)).map
    (visible q.modifiers.vars)

theorem map_sliceRows (f : Row → Row) (offset limit : Int) (rows : List Row) :
    (sliceRows offset limit rows).map f = sliceRows offset limit (rows.map f) := by
  unfold sliceRows
  split_ifs <;> simp [map_take, map_drop]

theorem bindings_distinct {env : Env} {ctx : EvalCtx} {g : Graph} {q : Query} {init : Row}
    (hselect : q.modifiers.type = .select) (hdistinct : q.modifiers.distinct = true) :
    (evalQuery env ctx g q init).bindings =
      sliceRows q.modifiers.offset q.modifiers.limit (distinctRows env ctx g q init) := by
  have hpush : limitPushdown env g q = none := by
    rw [limitPushdown]
    simp [hdistinct]
  have hlimit : pushdownLimit q = 0 := by
    rw [pushdownLimit, hselect]
    simp [hdistinct]
  obtain ⟨m, p, projs, groupBy, having, orderBy⟩ := q
  have hall : (if init = ∅ then evalPatternUpTo env ctx g p 0
      else (evalPatternPreBound env ctx g p init).map fun s => s ∪ init) =
      allSolutions env ctx g p init := by
    rw [evalPatternUpTo_zero]
    rfl
  replace hselect : m.type = .select := hselect
  replace hdistinct : m.distinct = true := hdistinct
  rw [evalQuery]
  simp only [hselect, hlimit, hall]
  rw [evalSelect]
  simp only [hdistinct, hpush, Option.getD_none, if_true, Result.bindings]
  rw [map_projectRow_eq_visible, map_sliceRows]
  rfl

/-- The variables that a key is over have names. -/
def KeyNames (vars : Option (List String)) (solutions : List Row) : Prop :=
  match vars with
  | some vs => ∀ v ∈ vs, VarName v
  | none => ∀ s ∈ solutions, ∀ v ∈ s, VarName v

/-- `SELECT *` shows apart what is different. -/
def ShowsApart (solutions : List Row) : Prop :=
  ∀ a ∈ solutions, ∀ b ∈ solutions, visible none a = visible none b → a = b

/-- Solutions with one key look the same. -/
theorem visible_eq_of_solutionKey_eq {vars : Option (List String)} {solutions : List Row}
    (hnames : KeyNames vars solutions) {a b : Row} (ha : a ∈ solutions) (hb : b ∈ solutions)
    (h : solutionKey vars a = solutionKey vars b) : visible vars a = visible vars b := by
  cases vars with
  | some vs => exact (solutionKey_some hnames).mp h
  | none => rw [(solutionKey_none (hnames a ha) (hnames b hb)).mp h]

/-- Solutions that look the same have one key, but for `SELECT *`, if they are different. -/
theorem solutionKey_eq_of_visible_eq {vars : Option (List String)} {solutions : List Row}
    (hnames : KeyNames vars solutions) (happart : vars.isSome ∨ ShowsApart solutions) {a b : Row}
    (ha : a ∈ solutions) (hb : b ∈ solutions) (h : visible vars a = visible vars b) :
    solutionKey vars a = solutionKey vars b := by
  cases vars with
  | some vs => exact (solutionKey_some hnames).mpr h
  | none => rw [(happart.resolve_left Bool.false_ne_true) a ha b hb h]

section

variable {vars : Option (List String)} {solutions : List Row} (hnames : KeyNames vars solutions)

include hnames

/-- Nothing that is to be shown is lost. -/
theorem mem_map_uniqueBy {r : Row} :
    r ∈ (uniqueBy (solutionKey vars) solutions).map (visible vars) ↔
      r ∈ solutions.map (visible vars) := by
  rw [uniqueBy_eq_fresh]
  constructor
  · intro h
    obtain ⟨s, hs, rfl⟩ := mem_map.mp h
    exact mem_map_of_mem (mem_fresh hs).1
  · intro h
    obtain ⟨s, hs, rfl⟩ := mem_map.mp h
    have hfound := (@key_mem_fresh _ _ _ (solutionKey vars) _ [] _ hs).resolve_left not_mem_nil
    obtain ⟨s', hs', hkey⟩ := mem_map.mp hfound
    rw [← visible_eq_of_solutionKey_eq hnames (mem_fresh hs').1 hs hkey]
    exact mem_map_of_mem hs'

/-- Every row is shown once exactly if what is shown tells the solutions apart that the key
    tells apart. -/
theorem nodup_map_uniqueBy_iff :
    ((uniqueBy (solutionKey vars) solutions).map (visible vars)).Nodup ↔
      vars.isSome ∨ ShowsApart solutions := by
  rw [uniqueBy_eq_fresh]
  constructor
  · intro hnodup
    cases vars with
    | some vs => exact .inl rfl
    | none =>
      refine .inr fun a ha b hb h => ?_
      have hmem : ∀ s ∈ solutions, s ∈ fresh (solutionKey none) [] solutions := by
        intro s hs
        refine (mem_fresh_iff ?_).mpr ⟨hs, not_mem_nil⟩
        exact fun a ha b hb => (solutionKey_none (hnames a ha) (hnames b hb)).mp
      exact inj_on_of_nodup_map hnodup (hmem a ha) (hmem b hb) h
  · intro happart
    refine List.Nodup.map_on ?_ ((nodup_fresh solutions []).of_map _)
    intro a ha b hb h
    have hkey := solutionKey_eq_of_visible_eq hnames happart (mem_fresh ha).1 (mem_fresh hb).1 h
    exact inj_on_of_nodup_map (nodup_fresh solutions []) ha hb hkey

end

/-- The rows of a `SELECT DISTINCT` are the projected solutions, each once, or what `OFFSET`
    and `LIMIT` leave of them, exactly if variables are listed or no two solutions only differ
    in variables that the parser has made up. -/
theorem distinct_rows_iff (env : Env) (ctx : EvalCtx) (g : Graph) (q : Query) (init : Row)
    (hselect : q.modifiers.type = .select) (hdistinct : q.modifiers.distinct = true)
    (hnames : KeyNames q.modifiers.vars (selectSolutions env ctx g q init)) :
    (evalQuery env ctx g q init).bindings =
      sliceRows q.modifiers.offset q.modifiers.limit (distinctRows env ctx g q init) ∧
    (((distinctRows env ctx g q init).Nodup ∧ ∀ r, r ∈ distinctRows env ctx g q init ↔
        r ∈ (selectSolutions env ctx g q init).map (visible q.modifiers.vars)) ↔
      q.modifiers.vars.isSome ∨ ShowsApart (selectSolutions env ctx g q init)) := by
  refine ⟨bindings_distinct hselect hdistinct, ?_⟩
  rw [distinctRows, nodup_map_uniqueBy_iff hnames]
  exact and_iff_left fun r => mem_map_uniqueBy hnames

/-- `<a> <p> <b>` and `<a> <p> <a>`. -/
def linksFromA : Graph :=
  .ofList [linkAB, ⟨.uri nodeA, linkP, nodeA.toTerm⟩] (by decide)

/-- `SELECT DISTINCT ?x { ?x <p> [] }`, or `SELECT DISTINCT * { ?x <p> [] }`. -/
def linkedQuery (vars : Option (List String)) : Query :=
  .mk ⟨.select, true, vars, -1, 0, []⟩
    (.bgp [⟨.var "x", .term (.const linkP.toTerm), .var ".bnode1"⟩]) [] [] none []

/-- A solution: the blank node stands for `x`. -/
def linkedRow (x : Term) : Row :=
  Finmap.insert ".bnode1" x (Finmap.singleton "x" nodeA.toTerm)

/-- The solutions of either query. -/
def linkedSolutions : List Row :=
  [linkedRow nodeB.toTerm, linkedRow nodeA.toTerm]

theorem selectSolutions_linkedQuery (vars : Option (List String)) :
    selectSolutions plainEnv plainCtx linksFromA (linkedQuery vars) ∅ = linkedSolutions := by
  have hall : allSolutions plainEnv plainCtx linksFromA (linkedQuery vars).pattern ∅ =
      linkedSolutions := by
    rw [linkedQuery, Query.pattern, allSolutions_bgp]
    decide
  rw [selectSolutions, hall]
  exact map_projectExprs_nil linkedSolutions

/-- With the variable listed there is one row. -/
theorem distinct_rows_listed :
    (distinctRows plainEnv plainCtx linksFromA (linkedQuery (some ["x"])) ∅).Nodup ∧
      ∀ r, r ∈ distinctRows plainEnv plainCtx linksFromA (linkedQuery (some ["x"])) ∅ ↔
        r ∈ (selectSolutions plainEnv plainCtx linksFromA (linkedQuery (some ["x"])) ∅).map
          (visible (some ["x"])) := by
  have hnames : KeyNames (some ["x"])
      (selectSolutions plainEnv plainCtx linksFromA (linkedQuery (some ["x"])) ∅) := by
    intro v hv
    rw [mem_singleton.mp hv, VarName]
    decide
  exact (distinct_rows_iff plainEnv plainCtx linksFromA (linkedQuery (some ["x"])) ∅ rfl rfl
    hnames).2.mpr (.inl rfl)

/-- `SELECT DISTINCT * { ?x <p> [] }` has one row twice. -/
theorem distinct_star_repeats :
    ∃ row, (evalQuery plainEnv plainCtx linksFromA (linkedQuery none) ∅).bindings = [row, row] := by
  have hnames : ∀ x, ∀ v ∈ linkedRow x, VarName v := by
    intro x v hv
    rw [VarName]
    rcases mem_insert.mp hv with rfl | hv
    · decide
    · rw [(mem_singleton _ _ _).mp hv]
      decide
  have hunique : uniqueBy (solutionKey none) linkedSolutions = linkedSolutions := by
    have hkey : solutionKey none (linkedRow nodeA.toTerm) ∉
        [solutionKey none (linkedRow nodeB.toTerm)] := by
      rw [List.mem_singleton, solutionKey_none (hnames _) (hnames _)]
      decide
    rw [uniqueBy_eq_fresh, linkedSolutions, fresh, if_neg not_mem_nil, fresh, if_neg hkey, fresh]
  have hsame : ∀ x, visible none (linkedRow x) =
      visible none (Finmap.singleton "x" nodeA.toTerm) := by
    intro x
    refine visible_eq_iff.mpr fun v hv => lookup_insert_of_ne _ ?_
    rintro rfl
    cases hv
  refine ⟨visible none (Finmap.singleton "x" nodeA.toTerm), ?_⟩
  rw [bindings_distinct rfl rfl, distinctRows, selectSolutions_linkedQuery]
  show sliceRows 0 (-1) ((uniqueBy (solutionKey none) linkedSolutions).map (visible none)) = _
  rw [hunique, linkedSolutions, map_cons, map_singleton, hsame, hsame]
  rfl

end GoRdf
