import GoRdf.Core.Endpoint
import GoRdf.Theory.Modify

/-!
# Updates with parameters

A request may name, beside its text, the graphs that its patterns are matched
against. `exchange.update` puts them into each `DELETE/INSERT … WHERE` and refuses
those that have a dataset of their own. `DELETE WHERE` has no place for them: it is
matched against the whole dataset, and a `WITH` in front of it has gone into its
quads by then.

## Main definitions

* `WrittenOperation.namesDataset`: The operation has `WITH` or `USING`.
* `UsesParameters`: What the parameters are for.

## Theorems

* `prepareUpdate_ok`: What is run.
* `exchangeUpdate_usesParameters_iff`: When the parameters are used.
-/

namespace GoRdf

open List

/-- The operation has a `WITH`, `USING` or `USING NAMED` clause. -/
def WrittenOperation.namesDataset (w : WrittenOperation) : Bool :=
  match w.op with
  | .modify m => w.target.isSome || !m.usings.isEmpty
  | .deleteWhere _ => w.target.isSome
  | _ => false

/-- The operation is a `DELETE WHERE`. -/
def WrittenOperation.isDeleteWhere (w : WrittenOperation) : Bool :=
  match w.op with
  | .deleteWhere _ => true
  | _ => false

section

variable {G : Type} (B : Backend G) {req : UpdateRequest}

/-- A request that names a dataset itself is refused and changes nothing. In any other,
    every pattern is matched against the graphs of the parameters and no others. -/
def UsesParameters (loader : Option (Loader G)) (req : UpdateRequest) : Prop :=
  ((∃ w ∈ req.operations, w.namesDataset = true) → ∀ env ctx fresh ds,
    ∃ e, exchangeUpdate B env ctx loader fresh req ds = (ds, .error e)) ∧
  ∀ ops, prepareUpdate loader.isSome req = .ok ops →
    ∀ op ∈ ops, ∀ pl m, op.modification pl = some m → ∀ ds,
      IsQueryDataset B ds { m with usings := req.usings } (B.view (queryGraph B ds m))
        (queryNamed ds m)

/-- What is run has the parameters in it, and no clauses of its own before that. -/
theorem prepareUpdate_ok {hasLoader : Bool} {ops : List UpdateOperation}
    (hparams : req.usings ≠ []) (h : prepareUpdate hasLoader req = .ok ops) :
    (∀ w ∈ req.operations, w.parse.hasDataset = false) ∧
      ops = req.operations.map fun w => w.parse.setUsing req.usings := by
  rw [prepareUpdate, isEmpty_eq_false_iff.mpr hparams] at h
  cases hrefs : checkGraphRefs (req.operations.map WrittenOperation.parse) with
  | error e =>
    rw [hrefs] at h
    cases h
  | ok _ =>
    rw [hrefs] at h
    by_cases hany :
        (req.operations.map WrittenOperation.parse).any UpdateOperation.hasDataset = true
    · simp [hany, bind, Except.bind] at h
    · simp only [hany, bind, Except.bind, Bool.false_eq_true, if_false] at h
      split at h
      · cases h
      · refine ⟨fun w hw => ?_, ?_⟩
        · simpa using fun hd => hany (any_eq_true.mpr ⟨w.parse, mem_map_of_mem hw, hd⟩)
        · rw [← Except.ok.inj h, map_map]
          rfl

/-- A `DELETE WHERE` is matched against the whole dataset. -/
theorem not_usesParameters {loader : Option (Loader G)} {ops : List UpdateOperation}
    {w : WrittenOperation} (hparams : req.usings ≠ [])
    (hok : prepareUpdate loader.isSome req = .ok ops) (hw : w ∈ req.operations)
    (hdelete : w.isDeleteWhere = true) : ¬ UsesParameters B loader req := by
  rintro ⟨-, huses⟩
  obtain ⟨quads, hparse⟩ : ∃ quads, w.parse = .deleteWhere quads := by
    obtain ⟨target, op⟩ := w
    cases op with
    | deleteWhere quads => cases target <;> exact ⟨_, rfl⟩
    | _ => cases hdelete
  have hmem : UpdateOperation.deleteWhere quads ∈ ops := by
    rw [(prepareUpdate_ok hparams hok).2]
    exact mem_map.mpr ⟨w, hw, by rw [hparse]; rfl⟩
  -- A triple of the default graph is matched, and no parameter names that graph.
  let t : Triple := updateTriple "x"
  have hin := ((huses ops hok _ hmem plainPrologue _ rfl ⟨B.add B.new t, ∅⟩).default t).mp
    ((B.mem_add _ _ _).mpr (.inl rfl))
  rw [if_neg hparams] at hin
  obtain ⟨uc, -, -, g, hg, -⟩ := hin
  cases hg

/-- The parameters are used exactly when the request is refused, or has no `DELETE WHERE`
    and names no dataset itself. -/
theorem exchangeUpdate_usesParameters_iff (loader : Option (Loader G)) (req : UpdateRequest)
    (hparams : req.usings ≠ []) :
    UsesParameters B loader req ↔
      (∃ e, prepareUpdate loader.isSome req = .error e) ∨
        ∀ w ∈ req.operations, w.isDeleteWhere = false ∧ w.namesDataset = false := by
  cases hprep : prepareUpdate loader.isSome req with
  | error e =>
    refine iff_of_true ⟨fun _ env ctx fresh ds => ⟨e, ?_⟩, fun ops hok => ?_⟩ (.inl ⟨e, rfl⟩)
    · rw [exchangeUpdate, hprep]
    · rw [hprep] at hok
      cases hok
  | ok ops =>
    obtain ⟨hclean, hops⟩ := prepareUpdate_ok hparams hprep
    constructor
    · refine fun huses => .inr fun w hw => ⟨?_, ?_⟩
      · by_contra hdelete
        exact not_usesParameters B hparams hprep hw (Bool.eq_true_of_not_eq_false hdelete) huses
      · -- A request that names a dataset must be refused, but this one was prepared.
        by_contra hnames
        obtain ⟨e, hrun⟩ := huses.1 ⟨w, hw, Bool.eq_true_of_not_eq_false hnames⟩ plainEnv
          Context.background (fun _ _ => updateScope) ⟨B.new, ∅⟩
        rw [exchangeUpdate, hprep] at hrun
        cases (Prod.mk.inj hrun).2
    · rintro (⟨e, he⟩ | hnone)
      · cases he
      · refine ⟨fun ⟨w, hw, hnames⟩ => ?_, fun ops' hok op hop pl m hm ds => ?_⟩
        · rw [(hnone w hw).2] at hnames
          cases hnames
        · obtain rfl : ops = ops' := Except.ok.inj (hprep.symm.trans hok)
          rw [hops] at hop
          obtain ⟨w, hw, rfl⟩ := mem_map.mp hop
          obtain ⟨target, op⟩ := w
          cases op with
          | modify m' =>
            cases hm
            exact queryDataset_correct B ds _
          | deleteWhere quads => cases (hnone _ hw).1
          | _ => cases hm

end

/-- An insertion with parameters is matched against their graphs. -/
theorem insertNode_usesParameters :
    UsesParameters memoryBackend none
      ⟨[⟨none, .modify insertNode⟩], [updateName], []⟩ :=
  (exchangeUpdate_usesParameters_iff memoryBackend none ⟨_, [updateName], []⟩
    (cons_ne_nil _ _)).mpr (.inr fun _ hw => by rw [mem_singleton.mp hw]; exact ⟨rfl, rfl⟩)

/-- `DELETE WHERE { ?s ?p ?o }`, with `using-graph-uri`. -/
def deleteAll : UpdateRequest :=
  ⟨[⟨none, .deleteWhere [⟨noName, [⟨.var "s", .term (.var "p"), .var "o"⟩]⟩]⟩], [updateName], []⟩

/-- It deletes from the default graph. -/
theorem deleteAll_ignoresParameters :
    ¬ UsesParameters memoryBackend none deleteAll :=
  @not_usesParameters _ memoryBackend deleteAll none _ _ (cons_ne_nil _ _) rfl
    (mem_singleton_self _) rfl

end GoRdf
