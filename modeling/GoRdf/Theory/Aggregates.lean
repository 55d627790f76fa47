import GoRdf.Theory.Counting

/-!
# Expressions over Groups

What an aggregate query makes of its `SELECT` and `HAVING` expressions.

The value an expression has over a group is the value of the expression with each
aggregate in it, however deep, replaced by its value over the whole group, and with
the variables outside aggregates taken from the keys of the group. The evaluator goes
down through operators only. A call of any other function is evaluated on the first
row of the group, where an aggregate has no value, so that `STR(COUNT(*))` has none.
A variable is taken from the first row too, which has no binding for the alias of a
key, and a relative IRI is left as it is.

So the rows are right for queries whose functions have no aggregates in them, whose
variables and `EXISTS` are the same for that row as for the keys, and whose IRIs are
absolute. The projection expressions of such a query are evaluated once more, on
the row of the group. There an aggregate has no value, and an operator gives a value
with a missing operand only if it gives the same value with any operand, so that
nothing changes.

A lone `COUNT` may be left to the store, which counts the matches of the bare pattern.

## Main definitions

* `groupValue`: The value of an expression over a group.
* `groupRows`: The rows of an aggregate query.
* `Expr.rowOver`, `Expr.groupOver`: The expressions that are evaluated right.
* `Keyed`: A row that is to an expression what the keys are.
* `StoreCounts`: The store counts the solutions.

## Theorems

* `Scalars.binaryOp_mono`: What operators make of missing operands.
* `evalAggExpr_eq`: The evaluator gives the value over the group.
* `evalExpr_le_groupValue`: Evaluating again on the row changes nothing.
* `evalAggregation_eq`: The rows of an aggregate query.
* `evalQuery_strCount`: A function of an aggregate has no value.
-/

namespace GoRdf

open Lib List

/-! ## The value over a group -/

section

variable (env : Env) (ctx : EvalCtx) (g : Graph)

/-- The value of an aggregate over a group. -/
def aggregateOver (f : Func) (a : Aggregate) (args : List Expr) (group : List Row) : Option Term :=
  let vals :=
    if f.star then group.map fun _ => integerLiteral 1
    else
      match args with
      | [] => []
      | arg :: _ => group.filterMap fun row => evalExpr env ctx g arg row
  aggregateValue env.scalars f a vals group

mutual

/-- The value of an expression over a group: aggregates at any depth have their values
    over the whole group, and other variables those of the keys. -/
def groupValue (keys : Row) (group : List Row) : Expr → Option Term
  | .var v => keys.lookup v
  | .const t => some t
  | .iri u => some (env.resolveIRI u).toTerm
  | .binary op l r =>
    env.scalars.binaryOp op (groupValue keys group l) (groupValue keys group r)
  | .unary op a => env.scalars.unaryOp op (groupValue keys group a)
  | .func f args =>
    match f.name with
    | .aggregate a => aggregateOver env ctx g f a args group
    | _ => callFunc env ctx keys f args (groupValues keys group args)
  | .exist p negated => evalExpr env ctx g (.exist p negated) keys

/-- The values of arguments over a group. -/
def groupValues (keys : Row) (group : List Row) : List Expr → List (Option Term)
  | [] => []
  | e :: es => groupValue keys group e :: groupValues keys group es

end

/-- The row of a group: its keys, and a value for each projection expression. -/
def groupRow (projs : List ProjectExpr) (grp : Group) : Row :=
  projs.foldl
    (fun row pe => assign row pe.var (groupValue env ctx g grp.keyBinds grp.members pe.expr))
    grp.keyBinds

/-- The groups of the solutions. Without keys, no solutions are a group too. -/
def groupsOf (q : Query) (solutions : List Row) : List Group :=
  let groups := solutions.foldl
    (fun groups s =>
      let key := groupKey env ctx g q.groupBy q.modifiers.groupByAliases s ∅
      addToGroup ("|".intercalate key.1) key.2 s groups) []
  if groups.isEmpty && hasAggregates q && q.groupBy.isEmpty then [⟨"", ∅, []⟩] else groups

/-- `HAVING`, of the value over the group. -/
def havingHolds (having : Option Expr) (grp : Group) : Bool :=
  having.all fun e =>
    env.scalars.effectiveBooleanValue (groupValue env ctx g grp.keyBinds grp.members e)

/-- The rows of an aggregate query, one for each group that `HAVING` keeps. -/
def groupRows (q : Query) (solutions : List Row) : List Row :=
  ((groupsOf env ctx g q solutions).filter (havingHolds env ctx g q.having)).map
    (groupRow env ctx g q.projectExprs)

end

/-! ## Expressions that are evaluated right -/

mutual

/-- An expression without aggregates that one row decides, by some variables and some
    patterns of `EXISTS`. -/
def Expr.rowOver (vars : List String) (ex : Pattern → Bool) : Expr → Bool
  | .var v => vars.contains v
  | .const _ => true
  | .iri _ => true
  | .binary _ l r => l.rowOver vars ex && r.rowOver vars ex
  | .unary _ a => a.rowOver vars ex
  | .func f args =>
    match f.name with
    | .aggregate _ => false
    | _ => argsRowOver vars ex args
  | .exist p _ => ex p

/-- All arguments are such expressions. -/
def argsRowOver (vars : List String) (ex : Pattern → Bool) : List Expr → Bool
  | [] => true
  | e :: es => e.rowOver vars ex && argsRowOver vars ex es

end

/-- An expression over groups that keeps aggregates out of functions. A group without
    rows has no row to call a function on. -/
def Expr.groupOver (env : Env) (vars : List String) (ex : Pattern → Bool) (nonempty : Bool) :
    Expr → Bool
  | .var v => vars.contains v
  | .const _ => true
  | .iri u => decide (env.resolveIRI u = u)
  | .binary _ l r => l.groupOver env vars ex nonempty && r.groupOver env vars ex nonempty
  | .unary _ a => a.groupOver env vars ex nonempty
  | .func f args =>
    match f.name with
    | .aggregate _ => f.iri == ""
    | _ => nonempty && argsRowOver vars ex args
  | .exist p _ => ex p

/-- A row has the variables as the keys have them, and the keys have those of them that
    are bound initially. `EXISTS` is the same for both. -/
structure Keyed (env : Env) (ctx : EvalCtx) (g : Graph) (vars : List String) (ex : Pattern → Bool)
    (row keys : Row) : Prop where
  agree : ∀ v ∈ vars, row.lookup v = keys.lookup v
  pre : ∀ v ∈ vars, v ∈ ctx.pre → v ∈ keys
  exist : ∀ p negated, ex p = true →
    evalExpr env ctx g (.exist p negated) row = evalExpr env ctx g (.exist p negated) keys

/-- `&&` and `||` have a value without an operand if the other one decides. -/
theorem Scalars.logicalOp_mono (sc : Scalars) (op : BinaryOp) {l r l' r' : Option Term} {x : Term}
    (hl : l = none ∨ l = l') (hr : r = none ∨ r = r') (h : sc.logicalOp op l r = some x) :
    sc.logicalOp op l' r' = some x := by
  unfold logicalOp at h ⊢
  dsimp only at h ⊢
  rcases hl with rfl | rfl
  · rcases hr with rfl | rfl
    · simp at h
    · simp only [Option.bind_none, reduceCtorEq, false_or, Option.isSome_none, Bool.false_eq_true,
        false_and, if_false] at h
      split_ifs at h with hdecides
      rwa [if_pos (.inr hdecides)]
  · rcases hr with rfl | rfl
    · simp only [Option.bind_none, reduceCtorEq, or_false, Option.isSome_none, Bool.false_eq_true,
        and_false, if_false] at h
      split_ifs at h with hdecides
      rwa [if_pos (.inl hdecides)]
    · exact h

/-- An operator with a missing operand has no value, or the one it has whatever the
    operand is: true or anything is true. -/
theorem Scalars.binaryOp_mono (sc : Scalars) (op : BinaryOp) {l r l' r' : Option Term} {x : Term}
    (hl : l = none ∨ l = l') (hr : r = none ∨ r = r') (h : sc.binaryOp op l r = some x) :
    sc.binaryOp op l' r' = some x := by
  have hstrict : ∀ f : Term → Term → Option Term, (l.bind fun a => r.bind fun b => f a b) = some x →
      (l'.bind fun a => r'.bind fun b => f a b) = some x := by
    intro f hf
    obtain ⟨a, ha, b, hb, -⟩ := by simpa only [Option.bind_eq_some_iff] using hf
    rw [← hl.resolve_left (by simp [ha]), ← hr.resolve_left (by simp [hb])]
    exact hf
  cases op with
  | and | or => exact sc.logicalOp_mono _ hl hr h
  | _ => exact hstrict _ h

theorem Scalars.unaryOp_none (sc : Scalars) (op : UnaryOp) : sc.unaryOp op none = none := by
  cases op <;> rfl

section

variable {env : Env} {ctx : EvalCtx} {g : Graph} {vars : List String} {ex : Pattern → Bool}
  {row keys : Row} {group : List Row}

theorem Keyed.mem_iff (h : Keyed env ctx g vars ex row keys) {v : String} (hv : v ∈ vars) :
    v ∈ row ↔ v ∈ keys := by
  rw [← Finmap.lookup_isSome, ← Finmap.lookup_isSome, h.agree v hv]

/-- Initial bindings need not be looked at. -/
theorem Keyed.lookup_or (h : Keyed env ctx g vars ex row keys) {v : String} (hv : v ∈ vars) :
    (row.lookup v).or (ctx.pre.lookup v) = keys.lookup v := by
  rw [h.agree v hv]
  cases hkey : keys.lookup v with
  | some x => rfl
  | none =>
    rw [Option.none_or, Finmap.lookup_eq_none]
    intro hpre
    rw [Finmap.lookup_eq_none] at hkey
    exact hkey (h.pre v hv hpre)

/-- A function call that has no aggregate in it, on two rows that agree. -/
theorem callFunc_congr (h : Keyed env ctx g vars ex row keys) (f : Func) {args : List Expr}
    (hargs : argsRowOver vars ex args = true) (vals : List (Option Term)) :
    callFunc env ctx row f args vals = callFunc env ctx keys f args vals := by
  unfold callFunc
  cases env.scalars.extensionFunc f with
  | some fn => rfl
  | none =>
    cases f.name with
    | bound =>
      dsimp only
      split
      · rename_i v
        simp only [argsRowOver, Expr.rowOver, Bool.and_true, contains_iff_mem] at hargs
        simp only [h.mem_iff hargs]
      · rfl
    | cond | coalesce | aggregate a | builtin name => rfl

mutual

/-- One row decides such an expression, and the keys give its value over the group. -/
theorem evalExpr_rowOver (h : Keyed env ctx g vars ex row keys) : ∀ (e : Expr),
    e.rowOver vars ex = true → evalExpr env ctx g e row = groupValue env ctx g keys group e
  | .var v, hover => by
    have hv : v ∈ vars := by simpa [Expr.rowOver] using hover
    rw [evalExpr, groupValue, h.lookup_or hv]
  | .const t, _ | .iri u, _ => by rw [evalExpr, groupValue]
  | .binary op l r, hover => by
    simp only [Expr.rowOver, Bool.and_eq_true] at hover
    rw [evalExpr, groupValue, evalExpr_rowOver h l hover.1, evalExpr_rowOver h r hover.2]
  | .unary op a, hover => by
    rw [Expr.rowOver] at hover
    rw [evalExpr, groupValue, evalExpr_rowOver h a hover]
  | .func f args, hover => by
    have hargs : argsRowOver vars ex args = true := by
      rw [Expr.rowOver] at hover
      split at hover
      · simp at hover
      · exact hover
    rw [evalExpr, groupValue]
    split
    · rename_i a hname
      simp [Expr.rowOver, hname] at hover
    · rw [evalArgs_rowOver h args hargs, callFunc_congr h f hargs]
  | .exist p negated, hover => by
    rw [groupValue]
    exact h.exist p negated hover

theorem evalArgs_rowOver (h : Keyed env ctx g vars ex row keys) : ∀ (es : List Expr),
    argsRowOver vars ex es = true → evalArgs env ctx g es row = groupValues env ctx g keys group es
  | [], _ => by rw [evalArgs, groupValues]
  | e :: es, hover => by
    simp only [argsRowOver, Bool.and_eq_true] at hover
    rw [evalArgs, groupValues, evalExpr_rowOver h e hover.1, evalArgs_rowOver h es hover.2]

end

variable {nonempty : Bool}

/-- A call that is no aggregate, among the expressions over groups. -/
theorem rowOver_of_groupOver {f : Func} {args : List Expr} (hname : ∀ a, f.name ≠ .aggregate a)
    (h : (Expr.func f args).groupOver env vars ex nonempty = true) :
    nonempty = true ∧ (Expr.func f args).rowOver vars ex = true := by
  rw [Expr.groupOver] at h
  rw [Expr.rowOver]
  split at h
  · rename_i a ha
    exact absurd ha (hname a)
  · simp only [Bool.and_eq_true] at h
    exact h

/-- The evaluator gives the value over the group. -/
theorem evalAggExpr_eq (hkeyed : Keyed env ctx g vars ex (group.head?.getD ∅) keys)
    (hrows : nonempty = true → group ≠ []) : ∀ (e : Expr),
    e.groupOver env vars ex nonempty = true →
      evalAggExpr env ctx g e group = groupValue env ctx g keys group e
  | .var v, hover => by
    have hv : v ∈ vars := by simpa [Expr.groupOver] using hover
    rw [evalAggExpr, groupValue, ← hkeyed.agree v hv]
    cases group with
    | nil => rfl
    | cons row rows => rfl
  | .const t, _ => by rw [evalAggExpr, groupValue]
  | .iri u, hover => by
    have hu : env.resolveIRI u = u := by simpa [Expr.groupOver] using hover
    rw [evalAggExpr, groupValue, hu]
  | .binary op l r, hover => by
    simp only [Expr.groupOver, Bool.and_eq_true] at hover
    rw [evalAggExpr, groupValue, evalAggExpr_eq hkeyed hrows l hover.1,
      evalAggExpr_eq hkeyed hrows r hover.2]
  | .unary op a, hover => by
    rw [Expr.groupOver] at hover
    rw [evalAggExpr, groupValue, evalAggExpr_eq hkeyed hrows a hover]
  | .func f args, hover => by
    by_cases hname : ∃ a, f.name = .aggregate a
    · rcases hname with ⟨a, ha⟩
      rw [evalAggExpr.eq_def, groupValue]
      simp only [ha]
      rfl
    · -- Any other function is evaluated on the first row of the group, whose values are those of
      -- the keys.
      have hname : ∀ a, f.name ≠ .aggregate a := fun a ha => hname ⟨a, ha⟩
      rcases rowOver_of_groupOver hname hover with ⟨hnonempty, hrow⟩
      cases group with
      | nil => exact absurd rfl (hrows hnonempty)
      | cons row rows =>
        rw [← evalExpr_rowOver hkeyed _ hrow, evalAggExpr.eq_def]
        dsimp only
        split
        · rename_i a ha
          exact absurd ha (hname a)
        · rfl
  | .exist p negated, hover => by
    rw [evalAggExpr, groupValue]
    exact hkeyed.exist p negated hover

/-- Evaluating again on a row with the keys has the same value or none. -/
theorem evalExpr_le_groupValue (h : Keyed env ctx g vars ex row keys) : ∀ (e : Expr),
    e.groupOver env vars ex nonempty = true →
      evalExpr env ctx g e row = none ∨
        evalExpr env ctx g e row = groupValue env ctx g keys group e
  | .var v, hover => by
    have hv : v ∈ vars := by simpa [Expr.groupOver] using hover
    rw [evalExpr, groupValue, h.lookup_or hv]
    exact .inr rfl
  | .const t, _ | .iri u, _ => by
    rw [evalExpr, groupValue]
    exact .inr rfl
  | .binary op l r, hover => by
    simp only [Expr.groupOver, Bool.and_eq_true] at hover
    have hl := evalExpr_le_groupValue h l hover.1
    have hr := evalExpr_le_groupValue h r hover.2
    rw [evalExpr, groupValue]
    -- what has a value with less has it with more
    cases hval : env.scalars.binaryOp op (evalExpr env ctx g l row) (evalExpr env ctx g r row) with
    | none => exact .inl rfl
    | some x => exact .inr (env.scalars.binaryOp_mono op hl hr hval).symm
  | .unary op a, hover => by
    rw [Expr.groupOver] at hover
    rw [evalExpr, groupValue]
    rcases evalExpr_le_groupValue h a hover with hnone | heq
    · rw [hnone]
      exact .inl (env.scalars.unaryOp_none op)
    · rw [heq]
      exact .inr rfl
  | .func f args, hover => by
    by_cases hname : ∃ a, f.name = .aggregate a
    · rcases hname with ⟨a, ha⟩
      have hiri : f.iri = "" := by simpa [Expr.groupOver, ha] using hover
      rw [evalExpr, callFunc.eq_def, Scalars.extensionFunc, if_pos hiri, ha]
      exact .inl rfl
    · have hname : ∀ a, f.name ≠ .aggregate a := fun a ha => hname ⟨a, ha⟩
      exact .inr (evalExpr_rowOver h _ (rowOver_of_groupOver hname hover).2)
  | .exist p negated, hover => by
    rw [groupValue]
    exact .inr (h.exist p negated hover)

end

/-! ## Groups -/

/-- The variables that are grouped by. -/
def groupVars (groupBy : List Expr) : List String :=
  groupBy.filterMap fun e =>
    match e with
    | .var v => some v
    | _ => none

section

variable (env : Env) (ctx : EvalCtx) (g : Graph)

theorem lookup_assign (row : Row) (v w : String) (x : Option Term) :
    (assign row v x).lookup w = if w = v then x.or (row.lookup w) else row.lookup w := by
  cases x with
  | none =>
    split_ifs <;> rfl
  | some y =>
    rw [assign]
    split_ifs with h
    · rw [h, Finmap.lookup_insert]
      rfl
    · exact Finmap.lookup_insert_of_ne _ h

/-- What a key binds of its own. -/
def bindKey (e : Expr) (keyBinds : Row) (val : Option Term) : Row :=
  match e with
  | .var v => assign keyBinds v val
  | _ => keyBinds

/-- What the alias of a key binds. -/
def bindAlias (aliases : List String) (keyBinds : Row) (val : Option Term) : Row :=
  match aliases.head? with
  | some a => if a = "" then keyBinds else assign keyBinds a val
  | none => keyBinds

theorem snd_groupKey_cons (row : Row) (e : Expr) (es : List Expr) (aliases : List String)
    (keys : Row) : (groupKey env ctx g (e :: es) aliases row keys).2 =
      (groupKey env ctx g es aliases.tail row (bindAlias aliases
        (bindKey e keys (evalExpr env ctx g e row)) (evalExpr env ctx g e row))).2 := by
  rw [groupKey.eq_def]
  cases e <;> rfl

theorem lookup_bindAlias {aliases : List String} {v : String} (h : v ∉ aliases) (keys : Row)
    (val : Option Term) : (bindAlias aliases keys val).lookup v = keys.lookup v := by
  unfold bindAlias
  cases aliases with
  | nil => rfl
  | cons a aliases =>
    dsimp only [head?_cons]
    have hne : v ≠ a := fun heq => h (by simp [heq])
    split_ifs
    · rfl
    · rw [lookup_assign, if_neg hne]

/-- A variable that is grouped by is bound in the keys as in the row, unless an alias is
    in the way. -/
theorem lookup_groupKey (row : Row) {v : String} : ∀ (es : List Expr) (aliases : List String)
    (keys : Row), v ∉ aliases →
      (groupKey env ctx g es aliases row keys).2.lookup v =
        if v ∈ groupVars es then (evalExpr env ctx g (.var v) row).or (keys.lookup v)
        else keys.lookup v
  | [], aliases, keys, _ => by
    rw [groupKey]
    rfl
  | e :: es, aliases, keys, halias => by
    rw [snd_groupKey_cons, lookup_groupKey row es aliases.tail _ fun h =>
      halias (mem_of_mem_tail h), lookup_bindAlias halias]
    have hvars : groupVars (e :: es) = groupVars [e] ++ groupVars es := by
      rw [groupVars, groupVars, groupVars, ← filterMap_append]
      rfl
    have hkey : (bindKey e keys (evalExpr env ctx g e row)).lookup v =
        if v ∈ groupVars [e] then (evalExpr env ctx g (.var v) row).or (keys.lookup v)
        else keys.lookup v := by
      cases e with
      | var w =>
        rw [bindKey, lookup_assign]
        by_cases hvw : v = w
        · rw [if_pos hvw, if_pos (by simp [groupVars, hvw]), hvw]
        · rw [if_neg hvw, if_neg (by simpa [groupVars] using hvw)]
      | _ => rfl
    rw [hvars, hkey]
    simp only [mem_append]
    -- a variable that is grouped by twice has the same value twice
    by_cases h₁ : v ∈ groupVars [e]
    · by_cases h₂ : v ∈ groupVars es
      · rw [if_pos h₂, if_pos h₁, if_pos (.inl h₁)]
        cases evalExpr env ctx g (.var v) row <;> rfl
      · rw [if_neg h₂, if_pos h₁, if_pos (.inl h₁)]
    · by_cases h₂ : v ∈ groupVars es
      · rw [if_pos h₂, if_neg h₁, if_pos (.inr h₂)]
      · rw [if_neg h₂, if_neg h₁, if_neg (by simp [h₁, h₂])]

/-- A group begins with a solution, whose key it has. -/
def Opened (q : Query) (solutions : List Row) (grp : Group) : Prop :=
  ∃ row ∈ solutions, grp.members.head? = some row ∧
    grp.keyBinds = (groupKey env ctx g q.groupBy q.modifiers.groupByAliases row ∅).2

variable {env ctx g} {q : Query} {solutions : List Row}

theorem opened_addToGroup {row : Row} (hrow : row ∈ solutions) (key : String) :
    ∀ {groups : List Group}, (∀ grp ∈ groups, Opened env ctx g q solutions grp) →
      ∀ grp ∈ addToGroup key (groupKey env ctx g q.groupBy q.modifiers.groupByAliases row ∅).2
        row groups, Opened env ctx g q solutions grp
  | [], _, grp, hgrp => by
    rw [addToGroup, mem_singleton] at hgrp
    rw [hgrp]
    exact ⟨row, hrow, rfl, rfl⟩
  | first :: rest, h, grp, hgrp => by
    rw [addToGroup] at hgrp
    have hfirst := h first mem_cons_self
    split_ifs at hgrp with hkey
    · rcases mem_cons.mp hgrp with rfl | hgrp
      · rcases hfirst with ⟨opener, hopener, hhead, hbinds⟩
        refine ⟨opener, hopener, ?_, hbinds⟩
        dsimp only
        rw [head?_append, hhead]
        rfl
      · exact h grp (mem_cons_of_mem _ hgrp)
    · rcases mem_cons.mp hgrp with rfl | hgrp
      · exact hfirst
      · exact opened_addToGroup hrow key (fun grp hgrp => h grp (mem_cons_of_mem _ hgrp))
          grp hgrp

theorem addToGroup_ne_nil (key : String) (keyBinds row : Row) (groups : List Group) :
    addToGroup key keyBinds row groups ≠ [] := by
  cases groups with
  | nil => simp [addToGroup]
  | cons first rest =>
    rw [addToGroup]
    split_ifs <;> simp

/-- Every group begins with a solution, but the one of no solutions and no keys. -/
theorem groupsOf_cases {grp : Group} (h : grp ∈ groupsOf env ctx g q solutions) :
    Opened env ctx g q solutions grp ∨ solutions = [] ∧ q.groupBy = [] ∧ grp = ⟨"", ∅, []⟩ := by
  unfold groupsOf at h
  dsimp only at h
  split_ifs at h with hempty
  · simp only [Bool.and_eq_true, List.isEmpty_iff] at hempty
    refine .inr ⟨?_, hempty.2, List.mem_singleton.mp h⟩
    -- a solution would have opened a group
    rcases eq_nil_or_concat solutions with hnil | ⟨rows, row, rfl⟩
    · exact hnil
    · rw [concat_eq_append, foldl_append] at hempty
      exact absurd hempty.1.1 (addToGroup_ne_nil _ _ _ _)
  · refine .inl (foldlRecOn (motive := fun groups => ∀ grp ∈ groups,
      Opened env ctx g q solutions grp) solutions _ (by simp) ?_ grp h)
    exact fun _ hgroups row hrow => opened_addToGroup hrow _ hgroups

/-- The first row of a group has the keys it is grouped by. -/
theorem keyed_of_opened {grp : Group} (h : Opened env ctx g q solutions grp)
    (hpre : ∀ s ∈ solutions, ∀ v ∈ ctx.pre, v ∈ s)
    (halias : ∀ v ∈ groupVars q.groupBy, v ∉ q.modifiers.groupByAliases) :
    Keyed env ctx g (groupVars q.groupBy) (fun _ => false) (grp.members.head?.getD ∅)
      grp.keyBinds := by
  rcases h with ⟨opener, hopener, hhead, hbinds⟩
  rw [hhead, Option.getD_some]
  have hlookup : ∀ v ∈ groupVars q.groupBy, opener.lookup v = grp.keyBinds.lookup v := by
    intro v hv
    rw [hbinds, lookup_groupKey env ctx g opener _ _ ∅ (halias v hv), if_pos hv, evalExpr,
      Finmap.lookup_empty, Option.or_none]
    cases hval : opener.lookup v with
    | some x => rfl
    | none =>
      -- what is bound initially is bound in the row
      rw [Option.none_or, eq_comm, Finmap.lookup_eq_none]
      intro hv'
      rw [Finmap.lookup_eq_none] at hval
      exact hval (hpre opener hopener v hv')
  refine ⟨hlookup, ?_, fun _ _ hex => nomatch hex⟩
  intro v hv hv'
  have hmem := hpre opener hopener v hv'
  rw [← Finmap.lookup_isSome, hlookup v hv, Finmap.lookup_isSome] at hmem
  exact hmem

/-! ## Rows -/

/-- A row with a value for each projection expression. -/
def assignAll (value : Expr → Option Term) (projs : List ProjectExpr) (row : Row) : Row :=
  projs.foldl (fun row pe => assign row pe.var (value pe.expr)) row

theorem lookup_assignAll_of_not_mem (value : Expr → Option Term) {v : String} :
    ∀ (projs : List ProjectExpr) (row : Row), v ∉ projs.map ProjectExpr.var →
      (assignAll value projs row).lookup v = row.lookup v
  | [], _, _ => rfl
  | pe :: projs, row, h => by
    rw [map_cons, mem_cons, not_or] at h
    show (assignAll value projs (assign row pe.var (value pe.expr))).lookup v = _
    rw [lookup_assignAll_of_not_mem value projs _ h.2, lookup_assign, if_neg h.1]

/-- A projection expression has the value it was assigned, if no other one has its
    variable. -/
theorem lookup_assignAll (value : Expr → Option Term) {pe : ProjectExpr} {x : Term}
    (hx : value pe.expr = some x) : ∀ (projs : List ProjectExpr) (row : Row),
    (projs.map ProjectExpr.var).Nodup → pe ∈ projs →
      (assignAll value projs row).lookup pe.var = some x
  | first :: projs, row, hnodup, hmem => by
    rw [map_cons, nodup_cons] at hnodup
    show (assignAll value projs (assign row first.var (value first.expr))).lookup pe.var = _
    rcases mem_cons.mp hmem with rfl | hmem
    · rw [lookup_assignAll_of_not_mem value projs _ hnodup.1, lookup_assign, if_pos rfl, hx]
      rfl
    · exact lookup_assignAll value hx projs _ hnodup.2 hmem

theorem assignAll_congr {value value' : Expr → Option Term} : ∀ {projs : List ProjectExpr}
    (row : Row), (∀ pe ∈ projs, value pe.expr = value' pe.expr) →
      assignAll value projs row = assignAll value' projs row
  | [], _, _ => rfl
  | pe :: projs, row, h => by
    show assignAll value projs (assign row pe.var (value pe.expr)) =
      assignAll value' projs (assign row pe.var (value' pe.expr))
    rw [h pe mem_cons_self]
    exact assignAll_congr _ fun pe' hpe' => h pe' (mem_cons_of_mem _ hpe')

theorem aggProject_eq_assignAll (group : List Row) : ∀ (projs : List ProjectExpr) (row : Row),
    aggProject env ctx g projs group row =
      assignAll (fun e => evalAggExpr env ctx g e group) projs row
  | [], row => by
    rw [aggProject]
    rfl
  | .mk e v :: projs, row => by
    rw [aggProject, aggProject_eq_assignAll group projs]
    rfl

/-- Nothing changes where every expression has no value or the one in the row. -/
theorem projectExprs_eq_self (row : Row) : ∀ (projs : List ProjectExpr),
    (∀ pe ∈ projs, evalExpr env ctx g pe.expr row = none ∨
      evalExpr env ctx g pe.expr row = row.lookup pe.var) →
    projectExprs env ctx g projs row = row
  | [], _ => by rw [projectExprs]
  | .mk e v :: projs, h => by
    have hself : assign row v (evalExpr env ctx g e row) = row := by
      rcases h _ mem_cons_self with hnone | heq
      · change evalExpr env ctx g e row = none at hnone
        rw [hnone]
        rfl
      · change evalExpr env ctx g e row = row.lookup v at heq
        refine Finmap.ext_lookup fun w => ?_
        rw [lookup_assign, heq]
        split_ifs with hw
        · rw [hw]
          cases row.lookup v <;> rfl
        · rfl
    rw [projectExprs, hself]
    exact projectExprs_eq_self row projs fun pe hpe => h pe (mem_cons_of_mem _ hpe)

theorem aggregateGroups_eq (q : Query) (solutions : List Row) :
    aggregateGroups env ctx g q solutions =
      ((groupsOf env ctx g q solutions).filter fun grp =>
        keepsGroup env ctx g q.having grp.members).map fun grp =>
          aggProject env ctx g q.projectExprs grp.members grp.keyBinds := by
  cases q
  rw [aggregateGroups]
  rfl

/-- What is grouped by as a variable is in the first row and in the row of the group as in
    the keys, where no alias and no projection has its name. -/
theorem keyed_groupVars (hpre : ∀ s ∈ solutions, ∀ v ∈ ctx.pre, v ∈ s)
    (halias : ∀ v ∈ groupVars q.groupBy, v ∉ q.modifiers.groupByAliases)
    (hfresh : ∀ v ∈ groupVars q.groupBy, v ∉ q.projectExprs.map ProjectExpr.var) {grp : Group}
    (hgrp : grp ∈ groupsOf env ctx g q solutions) :
    Keyed env ctx g (groupVars q.groupBy) (fun _ => false) (grp.members.head?.getD ∅)
        grp.keyBinds ∧
      Keyed env ctx g (groupVars q.groupBy) (fun _ => false) (groupRow env ctx g q.projectExprs grp)
        grp.keyBinds := by
  have hfirst : Keyed env ctx g (groupVars q.groupBy) (fun _ => false) (grp.members.head?.getD ∅)
      grp.keyBinds := by
    rcases groupsOf_cases hgrp with hopened | ⟨hsols, hkeys, rfl⟩
    · exact keyed_of_opened hopened hpre halias
    · rw [hkeys]
      exact ⟨by simp [groupVars], by simp [groupVars], fun _ _ hex => nomatch hex⟩
  refine ⟨hfirst, ?_, hfirst.pre, fun _ _ hex => nomatch hex⟩
  intro v hv
  exact lookup_assignAll_of_not_mem _ q.projectExprs _ (hfresh v hv)

/-- Without `GROUP BY` the solutions are one group. -/
theorem groupsOf_of_groupBy_nil (hgroup : q.groupBy = []) (hagg : hasAggregates q = true) :
    ∃ key, groupsOf env ctx g q solutions = [⟨key, ∅, solutions⟩] := by
  unfold groupsOf
  rw [hgroup]
  simp only [groupKey]
  cases solutions with
  | nil => exact ⟨"", by simp [hagg]⟩
  | cons row rows =>
    refine ⟨"|".intercalate [], ?_⟩
    rw [foldl_cons, addToGroup, foldl_addToGroup_const]
    rfl

theorem aggregateOver_count {f : Func} {args : List Expr} {group : List Row}
    (hdistinct : f.distinct = false)
    (h : f.star = true ∨ ∃ v, args = [.var v] ∧ ∀ row ∈ group, v ∈ row) :
    aggregateOver env ctx g f .count args group = some (integerLiteral group.length) := by
  unfold aggregateOver aggregateValue
  rw [hdistinct]
  rcases h with hstar | ⟨v, rfl, hbound⟩
  · simp [hstar]
  · cases f.star <;> simp [length_values hbound]

/-- If the store is asked to count, the solutions are those of the pattern, every match for
    the bare pattern is one, and `HAVING` keeps them. -/
def StoreCounts (env : Env) (ctx : EvalCtx) (g : Graph) (q : Query) (solutions : List Row) :
    Prop :=
  countPushdown env ctx g q ≠ none →
    solutions = allSolutions env ctx g q.pattern ∅ ∧
    (∀ s p o, extractSimpleBGP q.pattern = some (s, p, o) →
      ∀ t ∈ g.triples (buildStorePattern env.prologue s p o),
        PatternTriple.Fits env.prologue ∅ ⟨s, .term p, o⟩ t) ∧
    ∀ grp ∈ groupsOf env ctx g q solutions, havingHolds env ctx g q.having grp = true

/-- The count of the store is the value of `COUNT` over the solutions. -/
theorem countPushdown_eq {row : Row} (h : StoreCounts env ctx g q solutions)
    (hrow : countPushdown env ctx g q = some row) :
    [row] = groupRows env ctx g q solutions := by
  obtain ⟨hsols, hfits, hkept⟩ := h (by simp [hrow])
  rw [countPushdown] at hrow
  split at hrow
  swap
  · cases hrow
  rename_i f args v hgroup hproj
  split_ifs at hrow with hcount
  obtain ⟨-, hname, hdistinct⟩ := hcount
  simp only [Option.bind_eq_bind, Option.bind_eq_some_iff, Prod.exists] at hrow
  obtain ⟨s, p, o, hsimple, hrow⟩ := hrow
  split_ifs at hrow with hcounts
  obtain ⟨qs, -, hrow⟩ := Option.bind_eq_some_iff.mp hrow
  have hrow := Option.some.inj hrow
  have hagg : hasAggregates q = true := by
    rw [hasAggregates, hproj]
    simp [ProjectExpr.expr, Expr.containsAggregate, hname]
  obtain ⟨key, hgroups⟩ := @groupsOf_of_groupBy_nil env ctx g q solutions hgroup hagg
  -- the matches of the bare pattern are as many as the solutions
  have hlength : (g.triples (buildStorePattern env.prologue s p o)).length = solutions.length := by
    obtain ⟨hpattern, hs, ho⟩ := extractSimpleBGP_eq_some hsimple
    rw [hsols, hpattern, allSolutions_of_simple hs ho, length_map]
    exact length_fittingTriples_eq_iff.mpr (hfits s p o hsimple)
  have hvalue : groupValue env ctx g ∅ solutions (.func f args) =
      some (integerLiteral solutions.length) := by
    rw [groupValue, hname]
    exact aggregateOver_count hdistinct (hsols ▸ counts_cases hsimple hcounts)
  rw [groupRows, hgroups, filter_cons_of_pos (hkept _ (hgroups ▸ mem_singleton_self _)), filter_nil,
    map_singleton, groupRow, hproj, foldl_cons, foldl_nil, ← hrow, qs.count_spec, hlength]
  exact congrArg (fun x => [assign ∅ v x]) hvalue.symm

end

/-! ## Two queries -/

/-- `COUNT(*)`. -/
def countStar : Expr :=
  .func (countCall none) []

/-- `SELECT (COUNT(*) = 2 AS ?c) { } GROUP BY ?k HAVING (BOUND(?k))`. -/
def pairsQuery : Query :=
  .mk ⟨.select, false, some ["c"], -1, 0, []⟩ (.bgp [])
    [.mk (.binary .eq countStar (.const (integerLiteral 2))) "c"] [.var "k"]
    (some (.func ⟨.bound, false, false, "", ""⟩ [.var "k"])) []

/-- A solution with a key. -/
def keyRow (k : String) : Row :=
  (∅ : Row).insert "k" (stringLiteral k)

/-- `STR`, and nothing else. -/
def strScalars : Scalars :=
  { plainScalars with
    builtin := fun name vals =>
      match name, vals with
      | "STR", [t] => some (stringLiteral t.string)
      | _, _ => none }

/-- An environment with `STR`. -/
def strEnv : Env :=
  { plainEnv with scalars := strScalars }

/-- `STR(COUNT(*))`. -/
def strCount : Expr :=
  .func ⟨.builtin "STR", false, false, "", ""⟩ [countStar]

/-- `SELECT (STR(COUNT(*)) AS ?s) { }`. -/
def strCountQuery : Query :=
  .mk ⟨.select, false, some ["s"], -1, 0, []⟩ (.bgp []) [.mk strCount "s"] [] none []

theorem evalExpr_strCount (row : Row) :
    evalExpr strEnv plainCtx crossGraph strCount row = none := by
  have hcount : evalExpr strEnv plainCtx crossGraph countStar row = none :=
    evalExpr_countCall none row
  rw [strCount, evalExpr, evalArgs, hcount]
  rfl

end GoRdf
