import GoRdf.Core.Eval
import GoRdf.Theory.JoinOrder

/-!
# The Variables of a Solution

A basic graph pattern adds bindings to the row it starts from, and only for its
own variables. Which variables are in scope in a pattern can be read off its
parts.

## Main definitions

* `Pattern.isAlgebraic`: No sub-queries, and `BIND` on variables not in scope.

## Theorems

* `extends_of_mem_evalBGP`: The row at the start is part of every solution.
* `mem_of_mem_evalBGP`: The rest of a solution binds variables of the pattern.
* `Pattern.mem_addInScopeVars`: The variables in scope, part by part.
-/

namespace GoRdf

open Lib List

variable {vars : List String} {tps : List PatternTriple} {v : String}

section

variable {pl : Prologue} {g : Graph} {row row' : Row}

/-- A pattern adds to the row it starts from and changes nothing in it. -/
theorem extends_of_mem_matchRows {tp : PatternTriple} (h : row' ∈ matchRows pl g tp row) :
    Extends row row' := by
  obtain ⟨s, verb, o⟩ := tp
  cases verb with
  | term p =>
    rw [matchRows] at h
    split at h
    · cases h
    · obtain ⟨t, -, ht⟩ := mem_filterMap.mp h
      exact (@bindTriple_binds pl ∅ s p o t).2.1 row row' ht
  | path p =>
    rw [matchRows] at h
    split at h
    · cases h
    · obtain ⟨q, -, rfl⟩ := mem_map.mp h
      exact (extends_bindVar s q.1 row).trans (extends_bindVar o q.2 _)

theorem extends_of_mem_bgpSolutions (h : row' ∈ bgpSolutions pl g tps row) : Extends row row' := by
  induction tps generalizing row with
  | nil =>
    rw [bgpSolutions, mem_singleton] at h
    rw [h]
    exact Extends.refl row
  | cons tp rest ih =>
    rw [bgpSolutions, mem_flatMap] at h
    obtain ⟨row₁, h₁, h₂⟩ := h
    exact (extends_of_mem_matchRows h₁).trans (ih h₂)

/-- Only variables of the patterns are added. -/
theorem mem_of_mem_bgpSolutions (h : row' ∈ bgpSolutions pl g tps row) (hv : v ∈ row') :
    v ∈ row ∨ ∃ tp ∈ tps, v ∈ tp.vars := by
  induction tps generalizing row with
  | nil =>
    rw [bgpSolutions, mem_singleton] at h
    rw [h] at hv
    exact .inl hv
  | cons tp rest ih =>
    rw [bgpSolutions, mem_flatMap] at h
    obtain ⟨row₁, h₁, h₂⟩ := h
    rcases ih h₂ with hv₁ | ⟨tp', htp', hv'⟩
    · by_cases hrow : v ∈ row
      · exact .inl hrow
      · -- The first pattern has bound it.
        exact .inr ⟨tp, mem_cons_self, mem_vars_of_mem_matchRows h₁ hv₁ hrow⟩
    · exact .inr ⟨tp', mem_cons_of_mem tp htp', hv'⟩

variable {K : Costs} {tps : List PatternTriple}

theorem extends_of_mem_evalBGP (h : row' ∈ evalBGP K pl g tps row) : Extends row row' := by
  rw [evalBGP_eq] at h
  exact extends_of_mem_bgpSolutions h

theorem mem_of_mem_evalBGP (h : row' ∈ evalBGP K pl g tps row) (hv : v ∈ row') :
    v ∈ row ∨ ∃ tp ∈ tps, v ∈ tp.vars := by
  rw [evalBGP_eq] at h
  rcases mem_of_mem_bgpSolutions h hv with hrow | ⟨tp, htp, hvars⟩
  · exact .inl hrow
  · exact .inr ⟨tp, (orderBGP_perm K pl g tps row).mem_iff.mp htp, hvars⟩

/-- Merging the row at the start into a solution changes nothing. -/
theorem map_mergeBindings_evalBGP :
    (evalBGP K pl g tps row).map (mergeBindings row) = evalBGP K pl g tps row := by
  have hid : ∀ row' ∈ evalBGP K pl g tps row, mergeBindings row row' = row' :=
    fun row' h => union_of_extends (extends_of_mem_evalBGP h)
  rw [map_congr_left hid, map_id']

end

/-! ## Variables in scope -/

section

variable {v : String}

theorem mem_addVar {w : String} : v ∈ addVar vars w ↔ v ∈ vars ∨ v = w :=
  Lib.mem_addNew

theorem mem_foldl_addVar {vs : List String} : v ∈ vs.foldl addVar vars ↔ v ∈ vars ∨ v ∈ vs :=
  Lib.mem_foldl_addNew

theorem PatternTerm.mem_addVars {pt : PatternTerm} :
    v ∈ pt.addVars vars ↔ v ∈ vars ∨ v ∈ pt.vars := by
  induction pt generalizing vars with
  | var w => rw [addVars, mem_addVar, PatternTerm.vars, mem_singleton]
  | const t | name pfx loc => simp only [addVars, PatternTerm.vars, not_mem_nil, or_false]
  | triple s p o ihs ihp iho =>
    rw [addVars, iho, ihp, ihs, PatternTerm.vars, mem_append, mem_append, or_assoc,
      or_assoc, or_assoc]

theorem PatternTriple.mem_addVars {tp : PatternTriple} :
    v ∈ tp.addVars vars ↔ v ∈ vars ∨ v ∈ tp.vars := by
  obtain ⟨s, verb, o⟩ := tp
  cases verb with
  | term p =>
    rw [addVars, PatternTerm.mem_addVars, PatternTerm.mem_addVars, PatternTerm.mem_addVars,
      PatternTriple.vars, mem_append, mem_append, or_assoc, or_assoc, or_assoc]
  | path p =>
    rw [addVars, PatternTerm.mem_addVars, PatternTerm.mem_addVars, PatternTriple.vars,
      mem_append, or_assoc]

theorem mem_foldl_addVars :
    v ∈ tps.foldl (fun vars tp => tp.addVars vars) vars ↔ v ∈ vars ∨ ∃ tp ∈ tps, v ∈ tp.vars :=
  Lib.foldl_iff (M := (v ∈ ·)) (fun _ tp => tp.mem_addVars) tps vars

/-- One collection of variables after the other. -/
theorem mem_collect_seq {f k : List String → List String}
    (hf : ∀ vars, v ∈ f vars ↔ v ∈ vars ∨ v ∈ f [])
    (hk : ∀ vars, v ∈ k vars ↔ v ∈ vars ∨ v ∈ k []) (vars : List String) :
    v ∈ k (f vars) ↔ v ∈ vars ∨ v ∈ k (f []) := by
  rw [hk, hf, hk (f []), or_assoc]

mutual

/-- What is in scope does not depend on what has been found before. -/
theorem Pattern.mem_addInScopeVars : (p : Pattern) → (vars : List String) →
    (v ∈ p.addInScopeVars vars ↔ v ∈ vars ∨ v ∈ p.addInScopeVars [])
  | .bgp tps, vars => by
    simp only [Pattern.addInScopeVars, mem_foldl_addVars, not_mem_nil, false_or]
  | .join l r, vars => mem_collect_seq l.mem_addInScopeVars r.mem_addInScopeVars vars
  | .optional m o, vars => mem_collect_seq m.mem_addInScopeVars o.mem_addInScopeVars vars
  | .union l r, vars => mem_collect_seq l.mem_addInScopeVars r.mem_addInScopeVars vars
  | .minus l r, vars => l.mem_addInScopeVars vars
  | .filter p e, vars => p.mem_addInScopeVars vars
  | .bind p e w, vars => by
    refine mem_collect_seq p.mem_addInScopeVars (k := fun vars => addVar vars w) ?_ vars
    intro vars
    simp only [mem_addVar, not_mem_nil, false_or]
  | .values vs rows, vars => by
    simp only [Pattern.addInScopeVars, mem_foldl_addVar, not_mem_nil, false_or]
  | .graph name p, vars => by
    refine mem_collect_seq (f := name.addVars) ?_ p.mem_addInScopeVars vars
    intro vars
    simp only [PatternTerm.mem_addVars, not_mem_nil, false_or]
  | .subquery q, vars => q.mem_addInScopeVars vars

/-- Collecting into a list is collecting from nothing, added to the list. -/
theorem Query.mem_addInScopeVars : (q : Query) → (vars : List String) →
    (v ∈ q.addInScopeVars vars ↔ v ∈ vars ∨ v ∈ q.addInScopeVars [])
  | .mk m p projs _ _ _, vars => by
    rw [Query.addInScopeVars, Query.addInScopeVars]
    cases m.vars with
    | none => exact p.mem_addInScopeVars vars
    | some vs => simp only [mem_foldl_addVar, not_mem_nil, false_or, or_assoc]

end

end

/-- The pattern has no sub-queries, and its `BIND`s assign variables that are not in
    scope. -/
def Pattern.isAlgebraic : Pattern → Bool
  | .join l r => l.isAlgebraic && r.isAlgebraic
  | .optional m o => m.isAlgebraic && o.isAlgebraic
  | .union l r => l.isAlgebraic && r.isAlgebraic
  | .filter p _ => p.isAlgebraic
  | .bind p _ v => p.isAlgebraic && !p.inScopeVars.contains v
  | .minus l r => l.isAlgebraic && r.isAlgebraic
  | .graph _ p => p.isAlgebraic
  | .bgp _ => true
  | .values _ _ => true
  | .subquery _ => false

/-- A row of `VALUES` binds its variables. -/
theorem mem_valuesRow {env : Env} {cells : List (Option Term)} (h : v ∈ valuesRow env vars cells) :
    v ∈ vars := by
  have hloop : ∀ {f : Term → Term} (vcs : List (String × Option Term)) (row : Row),
      v ∈ vcs.foldl (fun row vc => assign row vc.1 (vc.2.map f)) row →
        v ∈ row ∨ v ∈ vcs.map Prod.fst := by
    intro f vcs
    induction vcs with
    | nil => exact fun row h => .inl h
    | cons vc vcs ih =>
      intro row h
      rw [map_cons, mem_cons]
      rcases ih _ h with h | h
      · obtain ⟨w, val⟩ := vc
        cases val with
        | none => exact .inl h
        | some t =>
          rcases Finmap.mem_insert.mp h with heq | h
          · exact .inr (.inl heq)
          · exact .inl h
      · exact .inr (.inr h)
  rcases hloop _ ∅ h with h | h
  · cases h
  · obtain ⟨vc, hvc, rfl⟩ := mem_map.mp h
    exact (of_mem_zip hvc).1

end GoRdf
