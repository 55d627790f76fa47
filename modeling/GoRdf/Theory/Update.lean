import GoRdf.Core.Update
import GoRdf.Lib.SetChange
import GoRdf.Theory.StoreGraph
import GoRdf.Theory.Stream

/-!
# What an Update Changes

An operation that instantiates templates works in two phases. The first creates
graphs that a template names and the dataset does not have, and changes no triple.
The second is a list of removals and additions, each a call of a store. A context
that is done cuts this list short: the calls check it, and the first refusal ends
the operation.

## Main definitions

* `Dataset.quads`: The triples of a dataset, with their graphs.
* `Creates`, `Grows`: Empty graphs have been created.
* `templateActions`: The triples of a template over the solutions.
* `UpdateOperation.modification`: `DELETE WHERE` and `DELETE/INSERT … WHERE`.
* `AllOrNothing`: What `EvalUpdateContext` promises of a cancelled operation.
* `memoryBackend`: Graphs as `NewGraph` makes them.

## Theorems

* `quads_foldl_change`: The calls of a store change the set of quads.
* `instantiateSolutions_spec`: What the first phase leaves behind.
* `applySolutions_cases`: An operation is stopped in the first phase, or makes the
  calls that the context allows.
* `update_allOrNothing_iff`: When the promise is kept.
-/

namespace GoRdf

open Lib List Option Set Dataset Context TripleIndex

variable {ref : GraphRef} {m : ModifyOp} {ctx : Context} {op : UpdateOperation}

section

variable {G : Type} (B : Backend G)

/-! ## Quads -/

/-- The triples of a dataset, with their graphs. -/
def Dataset.quads (ds : Dataset G) : Set TripleAction :=
  {q | ∃ g, ds.get q.1 = some g ∧ q.2 ∈ (B.view g).all}

theorem Dataset.get_modify (ds : Dataset G) (ref ref' : GraphRef) (f : G → G) :
    (ds.modify ref f).get ref' = if ref' = ref then (ds.get ref').map f else ds.get ref' := by
  cases ref with
  | none => cases ref' <;> rfl
  | some n =>
    cases hn : ds.namedGraphs.lookup n with
    | none =>
      rw [modify, hn]
      split_ifs with href
      · rw [href, get, hn, Option.map_none]
      · rfl
    | some g =>
      rw [modify, hn]
      cases ref' with
      | none => rfl
      | some n' =>
        rw [get, get]
        by_cases hname : n' = n
        · rw [hname, if_pos rfl, AList.lookup_insert, hn, Option.map_some]
        · rw [AList.lookup_insert_ne hname, if_neg fun h => hname (Option.some.inj h)]

theorem TripleOf.exactly_matches (t u : Triple) : u.exactly.matches t = decide (t = u) := by
  obtain ⟨s, p, o⟩ := t
  rw [Bool.eq_iff_iff, decide_eq_true_iff, TripleOf.mk.injEq, eq_comm (a := s), eq_comm (a := p),
    eq_comm (a := o)]
  simp only [TripleOf.exactly, TriplePatternOf.matches, all_some, Bool.and_eq_true,
    beq_iff_eq, and_assoc]

/-- The quads after one graph has changed. -/
theorem Dataset.mem_quads_modify {ds : Dataset G} {g : G} (f : G → G)
    (h : ds.get ref = some g) (q : TripleAction) :
    q ∈ (ds.modify ref f).quads B ↔
      (q.1 = ref ∧ q.2 ∈ (B.view (f g)).all) ∨ (q.1 ≠ ref ∧ q ∈ ds.quads B) := by
  rw [quads, mem_ofPred_eq, get_modify]
  by_cases hq : q.1 = ref
  · simp [hq, h]
  · simp [hq, quads]

/-! ## Calls of a store -/

/-- One call of a store. -/
def Dataset.change (ds : Dataset G) : SetChange TripleAction → Dataset G
  | .remove a => removeAction B ds a
  | .add a => addAction B ds a

/-- The quad that a call is about. -/
def changed : SetChange TripleAction → TripleAction
  | .remove a => a
  | .add a => a

theorem Dataset.get_change_isSome (ds : Dataset G) (c : SetChange TripleAction) (ref : GraphRef) :
    ((ds.change B c).get ref).isSome = (ds.get ref).isSome := by
  cases c with
  | remove a | add a =>
    refine (congrArg Option.isSome (get_modify ds a.1 ref _)).trans ?_
    split_ifs
    · exact Option.isSome_map
    · rfl

theorem Dataset.get_change_ne (ds : Dataset G) (c : SetChange TripleAction)
    (h : ref ≠ (changed c).1) : (ds.change B c).get ref = ds.get ref := by
  cases c with
  | remove a | add a => exact (get_modify ds a.1 ref _).trans (if_neg h)

theorem mem_view_foldl_add (ts : List Triple) (g : G) (t : Triple) :
    t ∈ (B.view (ts.foldl B.add g)).all ↔ t ∈ (B.view g).all ∨ t ∈ ts := by
  rw [Lib.foldl_iff (M := fun g => t ∈ (B.view g).all) fun g u =>
    (B.mem_add g u t).trans or_comm, exists_eq_right']

/-- A call changes the set of quads by its quad. -/
theorem quads_change {ds : Dataset G} {c : SetChange TripleAction}
    (h : (ds.get (changed c).1).isSome = true) :
    (ds.change B c).quads B = c.apply (ds.quads B) := by
  obtain ⟨g, hg⟩ := isSome_iff_exists.mp h
  have hmem : ∀ t : Triple, ((changed c).1, t) ∈ ds.quads B ↔ t ∈ (B.view g).all := by
    intro t
    simp only [quads, mem_ofPred_eq, hg, some.injEq, exists_eq_left']
  -- Quads of other graphs are not touched, so only the graph of the call is compared.
  ext q
  obtain ⟨ref, t⟩ := q
  cases c with
  | remove a =>
    obtain ⟨aref, u⟩ := a
    dsimp only [changed] at hg hmem
    change _ ∈ (ds.modify aref _).quads B ↔ _ ∈ ds.quads B \ {(aref, u)}
    rw [mem_quads_modify B _ hg, B.mem_remove, TripleOf.exactly_matches, mem_sdiff,
      mem_singleton_iff]
    by_cases href : ref = aref
    · subst href
      simp [hmem]
    · simp [href]
  | add a =>
    obtain ⟨aref, u⟩ := a
    dsimp only [changed] at hg hmem
    change _ ∈ (ds.modify aref _).quads B ↔ _ ∈ insert (aref, u) (ds.quads B)
    rw [mem_quads_modify B _ hg, B.mem_add, mem_insert_iff]
    by_cases href : ref = aref
    · subst href
      simp [hmem]
    · simp [href]

/-- The calls of a store change the set of quads, one by one. -/
theorem quads_foldl_change {ds : Dataset G} {cs : List (SetChange TripleAction)}
    (h : ∀ c ∈ cs, (ds.get (changed c).1).isSome = true) :
    (cs.foldl (fun ds c => ds.change B c) ds).quads B = afterChanges (ds.quads B) cs := by
  induction cs generalizing ds with
  | nil => rfl
  | cons c cs ih =>
    have hrest : ∀ c' ∈ cs, ((ds.change B c).get (changed c').1).isSome = true := by
      intro c' hc'
      rw [get_change_isSome]
      exact h c' (mem_cons_of_mem c hc')
    rw [foldl_cons, ih hrest, quads_change B (h c mem_cons_self)]
    rfl

theorem get_foldl_change_ne (ds : Dataset G) (cs : List (SetChange TripleAction))
    (h : ∀ c ∈ cs, ref ≠ (changed c).1) :
    (cs.foldl (fun ds c => ds.change B c) ds).get ref = ds.get ref :=
  foldlRecOn (motive := fun ds' => ds'.get ref = ds.get ref) cs _ rfl fun ds' hds' c hc =>
    (get_change_ne B ds' c (h c hc)).trans hds'

/-! ## Contexts -/

/-- The number of calls, out of so many, that a context lets through. -/
def Context.allows (ctx : Context) (check calls : Nat) : Nat :=
  match ctx.doneAfter with
  | none => calls
  | some n => min calls (n - check)

theorem Context.allows_of_done {check : Nat} (h : ctx.done check = true)
    (calls : Nat) : ctx.allows check calls = 0 := by
  rw [done, Option.any_eq_true] at h
  obtain ⟨n, hn, hle⟩ := h
  rw [allows, hn]
  have hle := of_decide_eq_true hle
  dsimp only
  omega

theorem Context.allows_succ {check : Nat} (h : ctx.done check = false)
    (calls : Nat) : ctx.allows check (calls + 1) = ctx.allows (check + 1) calls + 1 := by
  rw [done] at h
  rw [allows, allows]
  cases hn : ctx.doneAfter with
  | none => rfl
  | some n =>
    rw [hn, any_some, decide_eq_false_iff_not] at h
    dsimp only
    omega

theorem Context.allows_le (ctx : Context) (check calls : Nat) : ctx.allows check calls ≤ calls := by
  rw [allows]
  split
  · exact Nat.le_refl _
  · exact Nat.min_le_left _ _

/-- A context that cuts the calls short is done at their end. -/
theorem Context.done_of_allows_ne {check calls : Nat}
    (h : ctx.allows check calls ≠ calls) : ctx.done (check + calls) = true := by
  rw [allows] at h
  rw [done]
  cases hn : ctx.doneAfter with
  | none => exact absurd (by rw [hn]) h
  | some n =>
    rw [hn] at h
    rw [any_some, decide_eq_true_eq]
    dsimp only at h
    omega

/-- A loop of calls runs until the context is done. -/
theorem foldl_call (ctx : Context) (cs : List (SetChange TripleAction)) (ds : Dataset G)
    (check : Nat) :
    cs.foldl (fun st c => st.call ctx fun ds => ds.change B c) (⟨ds, check, none⟩ : Progress G) =
      ⟨(cs.take (ctx.allows check cs.length)).foldl (fun ds c => ds.change B c) ds,
        check + ctx.allows check cs.length,
        if ctx.allows check cs.length = cs.length then none else some .store⟩ := by
  induction cs generalizing ds check with
  | nil =>
    have hzero : ctx.allows check ([] : List (SetChange TripleAction)).length = 0 := by
      rw [allows]
      split
      · rfl
      · exact Nat.zero_min _
    rw [hzero]
    rfl
  | cons c cs ih =>
    by_cases hdone : ctx.done check = true
    · -- The first call is refused, and so nothing else happens.
      have hstuck : ∀ l : List (SetChange TripleAction),
          l.foldl (fun st c => st.call ctx fun ds => ds.change B c)
            (⟨ds, check, some .store⟩ : Progress G) = ⟨ds, check, some .store⟩ :=
        foldl_fixed' fun _ => rfl
      rw [allows_of_done hdone, foldl_cons]
      have hcall : (⟨ds, check, none⟩ : Progress G).call ctx (fun ds => ds.change B c) =
          ⟨ds, check, some .store⟩ := by
        simp only [Progress.call, Progress.next, hdone, if_true]
      rw [hcall, hstuck]
      simp
    · rw [Bool.not_eq_true] at hdone
      have hcall : (⟨ds, check, none⟩ : Progress G).call ctx (fun ds => ds.change B c) =
          ⟨ds.change B c, check + 1, none⟩ := by
        simp [Progress.call, Progress.next, hdone]
      rw [foldl_cons, hcall, ih, length_cons, allows_succ hdone, take_succ_cons, foldl_cons]
      simp only [Nat.add_right_cancel_iff, Nat.add_assoc, Nat.add_comm 1]

/-! ## New graphs -/

open Classical in
/-- Empty graphs have been created at those of `refs` that led nowhere. -/
def Creates (refs : Set GraphRef) (ds ds' : Dataset G) : Prop :=
  ∀ ref, ds'.get ref = if ref ∈ refs ∧ ds.get ref = none then some B.new else ds.get ref

/-- The same for some of `refs`. -/
def Grows (refs : Set GraphRef) (ds ds' : Dataset G) : Prop :=
  ∃ refs' ⊆ refs, Creates B refs' ds ds'

section

variable {B} {refs refs' : Set GraphRef} {ds ds' ds'' : Dataset G}

theorem Creates.refl (h : ∀ ref ∈ refs, (ds.get ref).isSome = true) : Creates B refs ds ds := by
  intro ref
  rw [if_neg]
  rintro ⟨href, hnone⟩
  have hsome := h ref href
  rw [hnone] at hsome
  cases hsome

theorem Creates.trans (h : Creates B refs ds ds') (h' : Creates B refs' ds' ds'') :
    Creates B (refs ∪ refs') ds ds'' := by
  intro ref
  rw [h' ref, h ref]
  grind

theorem Creates.isSome (h : Creates B refs ds ds') (href : ref ∈ refs) :
    (ds'.get ref).isSome = true := by
  rw [h ref]
  split_ifs with hnew
  · rfl
  · exact Option.isSome_iff_ne_none.mpr fun hnone => hnew ⟨href, hnone⟩

/-- A graph that no template names stays what it was. -/
theorem Grows.get_eq (h : Grows B refs ds ds') (href : ref ∉ refs) : ds'.get ref = ds.get ref := by
  obtain ⟨refs', hsub, h⟩ := h
  rw [h ref, if_neg fun hnew => href (hsub hnew.1)]

/-- No triple comes with a new graph. -/
theorem Grows.quads_eq (h : Grows B refs ds ds') : ds'.quads B = ds.quads B := by
  obtain ⟨refs', -, h⟩ := h
  ext q
  simp only [quads, mem_ofPred_eq, h q.1]
  split_ifs with hnew
  · simp [hnew.2, B.mem_new]
  · rfl

end

/-- The pointer to the graph with a name. -/
def refOf (name : URIRef) : GraphRef :=
  if name = defaultName then none else some name

theorem getOrCreateGraph_fst (ds : Dataset G) (name : URIRef) :
    (getOrCreateGraph B ds name).1 = refOf name := by
  rw [getOrCreateGraph, refOf]
  split
  · rfl
  · split <;> rfl

theorem getOrCreateGraph_creates (ds : Dataset G) (name : URIRef) :
    Creates B {refOf name} ds (getOrCreateGraph B ds name).2 := by
  rw [getOrCreateGraph, refOf]
  split
  · exact Creates.refl fun ref href => by rw [mem_singleton_iff.mp href]; rfl
  · split
    · rename_i hmem
      exact Creates.refl fun ref href => by
        rw [mem_singleton_iff.mp href]
        exact AList.lookup_isSome.mpr hmem
    · rename_i hnew
      intro ref
      cases ref with
      | none => simp [Dataset.get]
      | some n =>
        by_cases hn : n = name
        · subst hn
          simp [Dataset.get, AList.lookup_eq_none.mpr hnew]
        · simp [Dataset.get, hn, AList.lookup_insert_ne hn]

/-! ## Templates -/

/-- The graph of a template quad under a solution. -/
def templateRef (target : URIRef) (row : Row) (qp : QuadPattern) : Option GraphRef :=
  if qp.graph = noName then
    if target = noName then some none else some (refOf target)
  else
    match templateVariable qp.graph with
    | some v => ((row.lookup v).bind TermOf.asURIRef).map refOf
    | none => some (refOf qp.graph)

/-- What `resolveModifyGraph` finds, and what it leaves behind. -/
theorem resolveModifyGraph_spec (ds : Dataset G) (qp : QuadPattern) (target : URIRef) (row : Row) :
    (resolveModifyGraph B ds qp.graph target row).1 = templateRef target row qp ∧
      Creates B {ref | templateRef target row qp = some ref} ds
        (resolveModifyGraph B ds qp.graph target row).2 := by
  have hname : ∀ name, (some (getOrCreateGraph B ds name).1 = some (refOf name)) ∧
        Creates B {ref | some (refOf name) = some ref} ds (getOrCreateGraph B ds name).2 := by
    intro name
    have hset : {ref | some (refOf name) = some ref} = {refOf name} := by
      ext ref
      simp [eq_comm]
    exact ⟨congrArg some (getOrCreateGraph_fst B ds name),
      hset ▸ getOrCreateGraph_creates B ds name⟩
  rw [resolveModifyGraph, templateRef]
  split
  · split
    · refine ⟨rfl, Creates.refl fun ref href => ?_⟩
      cases href
      rfl
    · exact hname target
  · cases templateVariable qp.graph with
    | none => exact hname qp.graph
    | some v =>
      dsimp only [graphForVar]
      cases (row.lookup v).bind TermOf.asURIRef with
      | none => exact ⟨rfl, Creates.refl nofun⟩
      | some u => exact hname u

/-- The triples of a template under one solution, in the order they are collected. -/
def templateActions (pl : Prologue) (target : URIRef) (template : List QuadPattern)
    (s : Row × Scope) : List TripleAction :=
  template.flatMap fun qp =>
    match templateRef target s.1 qp with
    | none => []
    | some ref => (qp.triples.filterMap (templateTriple pl s.1 s.2)).map (Prod.mk ref)

/-- The graphs that a template names under a solution. -/
def templateRefs (target : URIRef) (template : List QuadPattern) (row : Row) : Set GraphRef :=
  {ref | ∃ qp ∈ template, templateRef target row qp = some ref}

theorem templateRefs_cons (target : URIRef) (qp : QuadPattern) (template : List QuadPattern)
    (row : Row) :
    templateRefs target (qp :: template) row =
      {ref | templateRef target row qp = some ref} ∪ templateRefs target template row := by
  ext ref
  simp only [templateRefs, mem_cons, exists_eq_or_imp, mem_union, mem_ofPred_eq]

theorem mem_templateActions {pl : Prologue} {target : URIRef} {template : List QuadPattern}
    {s : Row × Scope} {a : TripleAction} :
    a ∈ templateActions pl target template s ↔ ∃ qp ∈ template,
      templateRef target s.1 qp = some a.1 ∧
        ∃ t ∈ qp.triples, templateTriple pl s.1 s.2 t = some a.2 := by
  obtain ⟨ref, u⟩ := a
  rw [templateActions, mem_flatMap]
  refine exists_congr fun qp => and_congr_right fun _ => ?_
  cases templateRef target s.1 qp with
  | none => simp
  | some r => simp [List.mem_map, mem_filterMap, and_comm]

/-- What the loop over a template collects and leaves behind. -/
theorem instantiateTemplate_spec (pl : Prologue) (target : URIRef) (s : Row × Scope)
    (template : List QuadPattern) (ds : Dataset G) :
    (instantiateTemplate B pl target s.1 s.2 template ds).1 =
        templateActions pl target template s ∧
      Creates B (templateRefs target template s.1) ds
        (instantiateTemplate B pl target s.1 s.2 template ds).2 := by
  induction template generalizing ds with
  | nil => exact ⟨rfl, Creates.refl fun ref ⟨qp, hqp, _⟩ => nomatch hqp⟩
  | cons qp template ih =>
    have hfound := resolveModifyGraph_spec B ds qp target s.1
    rcases hres : resolveModifyGraph B ds qp.graph target s.1 with ⟨found, ds'⟩
    rw [hres] at hfound
    obtain ⟨hfst, hcreates⟩ := hfound
    obtain ⟨ihfst, ihcreates⟩ := ih ds'
    -- Whether the quad is skipped or not, the rest of the template goes on from `ds'`.
    have hrest : (instantiateTemplate B pl target s.1 s.2 (qp :: template) ds).2 =
        (instantiateTemplate B pl target s.1 s.2 template ds').2 := by
      rw [instantiateTemplate, hres]
      cases found <;> rfl
    rw [hrest]
    refine ⟨?_, templateRefs_cons target qp template s.1 ▸ hcreates.trans ihcreates⟩
    rw [instantiateTemplate, hres, templateActions, flatMap_cons, ← hfst]
    cases found with
    | none => exact ihfst
    | some ref => exact congrArg _ ihfst

/-- Both templates under one solution. -/
def solutionRefs (op : ModifyOp) (row : Row) : Set GraphRef :=
  templateRefs op.target op.delete row ∪ templateRefs op.target op.insert row

/-- The graphs that the templates name. -/
def ModifyOp.refs (op : ModifyOp) (solutions : List (Row × Scope)) : Set GraphRef :=
  {ref | ∃ s ∈ solutions, ref ∈ solutionRefs op s.1}

theorem ModifyOp.refs_cons (op : ModifyOp) (s : Row × Scope) (solutions : List (Row × Scope)) :
    op.refs (s :: solutions) = solutionRefs op s.1 ∪ op.refs solutions := by
  ext ref
  simp only [ModifyOp.refs, mem_cons, exists_eq_or_imp, mem_union, mem_ofPred_eq]

/-- What the templates come to. -/
def ModifyOp.changes (op : ModifyOp) (pl : Prologue) (solutions : List (Row × Scope)) : Changes :=
  ⟨solutions.flatMap (templateActions pl op.target op.delete),
    solutions.flatMap (templateActions pl op.target op.insert)⟩

/-- The calls that make the changes. -/
def Changes.calls (changes : Changes) : List (SetChange TripleAction) :=
  replacing changes.deletes changes.inserts

/-- What the loop over the solutions does with one of them. -/
theorem instantiate_solution (pl : Prologue) (op : ModifyOp) (s : Row × Scope) (ds : Dataset G) :
    ∃ ds₁ ds₂, instantiateTemplate B pl op.target s.1 s.2 op.delete ds =
        (templateActions pl op.target op.delete s, ds₁) ∧
      instantiateTemplate B pl op.target s.1 s.2 op.insert ds₁ =
        (templateActions pl op.target op.insert s, ds₂) ∧
      Creates B (solutionRefs op s.1) ds ds₂ := by
  obtain ⟨hdel, hcreates⟩ := instantiateTemplate_spec B pl op.target s op.delete ds
  obtain ⟨hins, hcreates'⟩ := instantiateTemplate_spec B pl op.target s op.insert
    (instantiateTemplate B pl op.target s.1 s.2 op.delete ds).2
  exact ⟨_, _, Prod.ext hdel rfl, Prod.ext hins rfl, hcreates.trans hcreates'⟩

/-- The loop over the solutions creates graphs, and nothing else. It runs to its end and
    collects what the templates come to, or it finds the context done. -/
theorem instantiateSolutions_spec (pl : Prologue) (ctx : Context) (op : ModifyOp)
    (solutions : List (Row × Scope)) (check : Nat) (ds : Dataset G) (changes : Changes) :
    ∃ ds', (ctx.allows check solutions.length = solutions.length ∧
        Creates B (op.refs solutions) ds ds' ∧
          instantiateSolutions B pl ctx op solutions check ds changes =
            (some ⟨changes.deletes ++ (op.changes pl solutions).deletes,
              changes.inserts ++ (op.changes pl solutions).inserts⟩,
              check + solutions.length, ds')) ∨
      (ctx.allows check solutions.length ≠ solutions.length ∧ Grows B (op.refs solutions) ds ds' ∧
        ∃ stopped, ctx.done stopped = true ∧
          instantiateSolutions B pl ctx op solutions check ds changes = (none, stopped, ds')) := by
  -- A stopped loop has created the graphs of the solutions before it, so what is left of the
  -- dataset is said in both cases.
  induction solutions generalizing check ds changes with
  | nil =>
    refine ⟨ds, .inl ⟨?_, Creates.refl fun ref ⟨s, hs, _⟩ => absurd hs not_mem_nil, ?_⟩⟩
    · exact Nat.le_zero.mp (ctx.allows_le check 0)
    · rw [ModifyOp.changes, flatMap_nil, flatMap_nil, append_nil, append_nil]
      rfl
  | cons s solutions ih =>
    by_cases hdone : ctx.done check = true
    · refine ⟨ds, .inr ⟨?_, ⟨∅, empty_subset _, Creates.refl nofun⟩, check, hdone, ?_⟩⟩
      · rw [allows_of_done hdone]
        exact (Nat.succ_ne_zero _).symm
      · rw [instantiateSolutions, if_pos hdone]
    · rw [Bool.not_eq_true] at hdone
      obtain ⟨ds₁, ds₂, hdel, hins, hcreates⟩ := instantiate_solution B pl op s ds
      let changes' : Changes := ⟨changes.deletes ++ templateActions pl op.target op.delete s,
        changes.inserts ++ templateActions pl op.target op.insert s⟩
      have hstep : instantiateSolutions B pl ctx op (s :: solutions) check ds changes =
          instantiateSolutions B pl ctx op solutions (check + 1) ds₂ changes' := by
        rw [instantiateSolutions, if_neg (Bool.eq_false_iff.mp hdone)]
        dsimp only
        rw [hdel]
        rw [hins]
      obtain ⟨ds', hcases⟩ := ih (check + 1) ds₂ changes'
      refine ⟨ds', ?_⟩
      rw [hstep, length_cons, allows_succ hdone, op.refs_cons]
      rcases hcases with ⟨hrun, hrest, heq⟩ | ⟨hcut, ⟨refs, hsub, hrest⟩, hstopped⟩
      · refine .inl ⟨by rw [hrun], hcreates.trans hrest, ?_⟩
        rw [heq, ModifyOp.changes, ModifyOp.changes, flatMap_cons, flatMap_cons,
          append_assoc, append_assoc, Nat.add_assoc, Nat.add_comm 1]
      · exact .inr ⟨fun h => hcut (Nat.succ.inj h),
          ⟨_, union_subset_union_right _ hsub, hcreates.trans hrest⟩, hstopped⟩

/-! ## One operation -/

theorem changed_mem_refs {pl : Prologue} {op : ModifyOp} {solutions : List (Row × Scope)}
    {c : SetChange TripleAction}
    (h : c ∈ (op.changes pl solutions).calls) :
    (changed c).1 ∈ op.refs solutions := by
  have hmem : ∀ {template : List QuadPattern} {a : TripleAction},
      a ∈ solutions.flatMap (templateActions pl op.target template) →
        ∃ s ∈ solutions, a.1 ∈ templateRefs op.target template s.1 := by
    intro template a ha
    obtain ⟨s, hs, ha⟩ := mem_flatMap.mp ha
    obtain ⟨qp, hqp, href, -⟩ := mem_templateActions.mp ha
    exact ⟨s, hs, qp, hqp, href⟩
  rcases mem_append.mp h with h | h
  · obtain ⟨a, ha, rfl⟩ := mem_map.mp h
    obtain ⟨s, hs, href⟩ := hmem ha
    exact ⟨s, hs, .inl href⟩
  · obtain ⟨a, ha, rfl⟩ := mem_map.mp h
    obtain ⟨s, hs, href⟩ := hmem ha
    exact ⟨s, hs, .inr href⟩

/-- An operation is stopped before it changes anything, or it makes the calls that the
    context allows. -/
theorem applySolutions_cases (pl : Prologue) (ctx : Context) (op : ModifyOp)
    (solutions : List (Row × Scope)) (check : Nat) (ds : Dataset G) :
    ∃ ds', Grows B (op.refs solutions) ds ds' ∧
      ((ctx.done (check + solutions.length) = true ∧ ∃ stopped, ctx.done stopped = true ∧
            applySolutions B pl ctx op solutions check ds = ⟨ds', stopped, none⟩) ∨
        (ctx.done (check + solutions.length) = false ∧
          (∀ ref ∈ op.refs solutions, (ds'.get ref).isSome = true) ∧
          applySolutions B pl ctx op solutions check ds =
            (op.changes pl solutions).calls.foldl (fun st c => st.call ctx fun ds => ds.change B c)
              ⟨ds', check + solutions.length + 1, none⟩)) := by
  obtain ⟨ds', ⟨hrun, hcreates, heq⟩ | ⟨hcut, hgrow, stopped, hstopped, heq⟩⟩ :=
    instantiateSolutions_spec B pl ctx op solutions check ds ⟨[], []⟩
  · refine ⟨ds', ⟨_, subset_rfl, hcreates⟩, ?_⟩
    rw [applySolutions, heq]
    dsimp only
    by_cases hdone : ctx.done (check + solutions.length) = true
    · exact .inl ⟨hdone, _, hdone, if_pos hdone⟩
    · refine .inr ⟨Bool.not_eq_true _ ▸ hdone, fun ref => hcreates.isSome, ?_⟩
      rw [if_neg hdone, nil_append, nil_append, Changes.calls, replacing, foldl_append, foldl_map,
        foldl_map]
      rfl
  · refine ⟨ds', hgrow, .inl ⟨done_of_allows_ne hcut, stopped, hstopped, ?_⟩⟩
    rw [applySolutions, heq]

/-! ## All or nothing -/

/-- `DELETE WHERE` and `DELETE/INSERT … WHERE`. -/
def UpdateOperation.modification (pl : Prologue) : UpdateOperation → Option ModifyOp
  | .deleteWhere quads => some (deleteWhereOp pl quads)
  | .modify op => some op
  | _ => none

theorem evalUpdateOp_modification (env : Env) (ctx : Context) (loader : Option (Loader G))
    (fresh : Nat → Scope) (h : op.modification env.prologue = some m)
    (check : Nat) (ds : Dataset G) :
    evalUpdateOp B env ctx loader fresh op check ds = evalModify B env ctx fresh m check ds := by
  cases op with
  | insertData quads | deleteData quads => cases h
  | deleteWhere quads | modify op =>
    cases h
    rfl
  | graphMgmt op => cases h

/-- The dataset after a request of one operation. -/
theorem evalUpdateContext_fst (env : Env) (ctx : Context) (loader : Option (Loader G))
    (fresh : Nat → Nat → Scope)
    (h : op.modification env.prologue = some m) (ds : Dataset G) :
    (evalUpdateContext B env ctx loader fresh [op] ds).1 =
      if ctx.done 0 then ds else (evalModify B env ctx (fresh 0) m 1 ds).dataset := by
  rw [evalUpdateContext, evalOperations]
  split
  · rfl
  · rw [evalUpdateOp_modification B env ctx loader (fresh 0) h]
    dsimp only
    split
    · rfl
    · split
      · rfl
      · rfl

/-- Whenever the context becomes done, the dataset holds what it held before the operation
    or what it holds when the context never does. -/
def AllOrNothing (env : Env) (loader : Option (Loader G)) (fresh : Nat → Nat → Scope)
    (op : UpdateOperation) (ds : Dataset G) : Prop :=
  ∀ ctx, (evalUpdateContext B env ctx loader fresh [op] ds).1.quads B = ds.quads B ∨
    (evalUpdateContext B env ctx loader fresh [op] ds).1.quads B =
      (evalUpdateContext B env background loader fresh [op] ds).1.quads B

/-- What the templates of an operation come to on a dataset. -/
def ModifyOp.changesOn (m : ModifyOp) (env : Env) (fresh : Nat → Scope) (ds : Dataset G) :
    Changes :=
  m.changes env.prologue (withScopes fresh (solutionsOf B env ds m))

/-- The quads after the calls that the context lets through. An operation that is stopped
    before its first call has changed none. -/
theorem quads_evalModify (env : Env) (ctx : Context) (fresh : Nat → Scope) (m : ModifyOp)
    (check : Nat) (ds : Dataset G) :
    (evalModify B env ctx fresh m check ds).dataset.quads B =
      if ctx.done (check + (solutionsOf B env ds m).length) then ds.quads B else
        afterChanges (ds.quads B) ((m.changesOn B env fresh ds).calls.take
          (ctx.allows (check + (solutionsOf B env ds m).length + 1)
            (m.changesOn B env fresh ds).calls.length)) := by
  have hlen : (withScopes fresh (solutionsOf B env ds m)).length =
      (solutionsOf B env ds m).length := by
    rw [withScopes, length_map, length_zipIdx]
  obtain ⟨ds', hgrow, hcases⟩ := applySolutions_cases B env.prologue ctx m
    (withScopes fresh (solutionsOf B env ds m)) check ds
  rw [hlen] at hcases
  rcases hcases with ⟨hdone, stopped, -, heq⟩ | ⟨hdone, hsome, heq⟩
  · rw [if_pos hdone, evalModify, heq]
    exact hgrow.quads_eq
  · rw [hdone, if_neg Bool.false_ne_true, evalModify, heq, foldl_call]
    rw [quads_foldl_change, hgrow.quads_eq]
    · rfl
    · intro c hc
      exact hsome _ (changed_mem_refs (mem_of_mem_take hc))

theorem allOrNothing_iff_indivisible {env : Env} {loader : Option (Loader G)}
    {fresh : Nat → Nat → Scope}
    (h : op.modification env.prologue = some m) {ds : Dataset G} :
    AllOrNothing B env loader fresh op ds ↔
      Indivisible (ds.quads B) (m.changesOn B env (fresh 0) ds).calls := by
  have hdone : ∀ n, background.done n = false := fun _ => rfl
  have hallows : ∀ n l, background.allows n l = l := fun _ _ => rfl
  simp only [AllOrNothing, evalUpdateContext_fst B env _ loader fresh h, quads_evalModify,
    apply_ite (Dataset.quads B), hdone, hallows, Bool.false_eq_true, if_false, take_length]
  set n := (solutionsOf B env ds m).length
  constructor
  · intro hall k
    -- The context becomes done after the last check that nothing depends on and `k` calls.
    have hcut := hall ⟨some (n + 2 + k)⟩
    have hstart : (Context.mk (some (n + 2 + k))).done 0 = false := decide_eq_false (by omega)
    have hpoll : (Context.mk (some (n + 2 + k))).done (1 + n) = false :=
      decide_eq_false (by omega)
    have hcalls : ∀ l, (Context.mk (some (n + 2 + k))).allows (1 + n + 1) l = min l k := by
      intro l
      change min l _ = _
      omega
    rw [hstart, hpoll, hcalls, Nat.min_comm, ← take_eq_take_min] at hcut
    exact hcut
  · intro hind ctx
    split_ifs
    · exact .inl rfl
    · exact .inl rfl
    · exact hind _

/-- How many of the removals and additions have an effect. -/
noncomputable def Changes.effects (changes : Changes) (D : Set TripleAction) : ℕ :=
  ({a | a ∈ changes.deletes} ∩ D).ncard +
    ({a | a ∈ changes.inserts} \ (D \ {a | a ∈ changes.deletes})).ncard

/-- An operation is all or nothing, whenever the context becomes done, exactly if it changes
    at most one triple: every call of a store checks the context again. -/
theorem update_allOrNothing_iff (env : Env) (loader : Option (Loader G))
    (fresh : Nat → Nat → Scope) (m : ModifyOp) (quads : List QuadPattern) (ds : Dataset G) :
    (AllOrNothing B env loader fresh (.modify m) ds ↔
        (m.changesOn B env (fresh 0) ds).effects (ds.quads B) ≤ 1) ∧
      (AllOrNothing B env loader fresh (.deleteWhere quads) ds ↔
        ((deleteWhereOp env.prologue quads).changesOn B env (fresh 0) ds).effects
          (ds.quads B) ≤ 1) := by
  have hiff : ∀ {op : UpdateOperation} {m : ModifyOp}, op.modification env.prologue = some m →
      (AllOrNothing B env loader fresh op ds ↔
        (m.changesOn B env (fresh 0) ds).effects (ds.quads B) ≤ 1) := by
    intro op m h
    rw [allOrNothing_iff_indivisible B h, Changes.calls, indivisible_replacing_iff]
    rfl
  exact ⟨hiff rfl, hiff rfl⟩

end

/-! ## Memory graphs -/

/-- A graph on a memory store of its own, with the set it holds. -/
structure MemoryGraph where
  idx : TripleIndex iriChar
  contents : Finset Triple
  inv : idx.Inv Set.univ contents

/-- Graphs as `NewGraph` makes them. -/
def memoryBackend : Backend MemoryGraph where
  new := ⟨newTripleIndex, ∅, inv_new Term.injOn_termKey⟩
  view g := g.idx.graph g.inv
  add g t := ⟨g.idx.add t, insert t g.contents, add_inv g.inv t.within_univ⟩
  remove g pat :=
    ⟨g.idx.removeMatching pat, g.contents.filter fun t => pat.matches t = false,
      removeMatching_inv g.inv pat.within_univ⟩
  mem_new t := by
    rw [mem_graph_all]
    exact Finset.notMem_empty t
  mem_add g u t := by
    rw [mem_graph_all, mem_graph_all, Finset.mem_insert]
  mem_remove g pat t := by
    rw [mem_graph_all, mem_graph_all, Finset.mem_filter]

/-- The default graph alone. -/
def memoryDataset (ts : List Triple) : Dataset MemoryGraph :=
  ⟨ts.foldl memoryBackend.add memoryBackend.new, ∅⟩

theorem mem_quads_memoryDataset (ts : List Triple) (q : TripleAction) :
    q ∈ (memoryDataset ts).quads memoryBackend ↔ q.1 = none ∧ q.2 ∈ ts := by
  obtain ⟨ref, t⟩ := q
  cases ref with
  | none =>
    simp only [Dataset.quads, memoryDataset, Dataset.get, mem_ofPred_eq, some.injEq,
      exists_eq_left', mem_view_foldl_add, memoryBackend.mem_new, false_or, true_and]
  | some n =>
    simp only [Dataset.quads, memoryDataset, Dataset.get, mem_ofPred_eq, AList.lookup_empty,
      reduceCtorEq, false_and, exists_false]

/-- `WHERE { }` has one solution. -/
theorem solutionsOf_empty {G : Type} (B : Backend G) (env : Env) (ds : Dataset G)
    (h : m.pattern = .bgp []) : solutionsOf B env ds m = [∅] := by
  rw [solutionsOf, h, evalPattern]
  rfl

theorem updateName_valid : "http://e/a".toList.all iriChar = true := by decide

/-- The name of everything. -/
def updateName : URIRef := ⟨"http://e/a", updateName_valid⟩

/-- `<a> <a> "text"@en`. -/
def updateTriple (text : String) : Triple :=
  ⟨.uri updateName, updateName, .literal ⟨text, .lang ⟨"en", english_valid⟩⟩⟩

/-- A template triple without variables. -/
def TripleOf.toPattern (t : Triple) : PatternTriple :=
  ⟨.const (.subject t.subject), .term (.const t.predicate.toTerm), .const t.object⟩

/-- `DELETE { <a> <a> "x"@en, "y"@en } WHERE { }`. -/
def deleteTwo : ModifyOp :=
  ⟨noName, [⟨noName, [(updateTriple "x").toPattern, (updateTriple "y").toPattern]⟩], [], [],
    .bgp []⟩

theorem updateLabel_valid : "b".toList.all iriChar = true := by decide

theorem updateLabel_ne : "b" ≠ "" := by decide

/-- One node, whatever the label. -/
def updateScope : Scope :=
  fun _ => ⟨"b", updateLabel_valid, updateLabel_ne⟩

/-- A context that becomes done between two removals leaves one of the triples behind. -/
theorem deleteTwo_halfDone :
    ¬ AllOrNothing memoryBackend plainEnv none (fun _ _ => updateScope) (.modify deleteTwo)
      (memoryDataset [updateTriple "x", updateTriple "y"]) := by
  intro hall
  set ts := [updateTriple "x", updateTriple "y"]
  have hchanges : deleteTwo.changesOn memoryBackend plainEnv (fun _ => updateScope)
      (memoryDataset ts) = ⟨[(none, updateTriple "x"), (none, updateTriple "y")], []⟩ := by
    rw [ModifyOp.changesOn, solutionsOf_empty memoryBackend plainEnv _ rfl]
    rfl
  have hone := (allOrNothing_iff_indivisible memoryBackend rfl).mp hall 1
  rw [hchanges, Changes.calls, take_replacing, afterChanges_replacing,
    afterChanges_replacing] at hone
  have hquads : ∀ t ∈ ts, ((none, t) : TripleAction) ∈ (memoryDataset ts).quads memoryBackend :=
    fun t ht => (mem_quads_memoryDataset _ _).mpr ⟨rfl, ht⟩
  have hne : updateTriple "y" ≠ updateTriple "x" := by decide
  rcases hone with heq | heq
  · have hx := hquads (updateTriple "x") mem_cons_self
    rw [← heq] at hx
    simp at hx
  · have hleft : ((none, updateTriple "y") : TripleAction) ∉
        {a | a ∈ [((none, updateTriple "x") : TripleAction)]} := by simpa using hne
    have hboth := heq.subset (.inl ⟨hquads _ (mem_cons_of_mem _ mem_cons_self), hleft⟩)
    simp at hboth

end GoRdf
