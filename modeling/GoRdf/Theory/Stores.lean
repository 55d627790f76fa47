import GoRdf.Theory.Badger
import GoRdf.Theory.MemoryStore

/-!
# Two Stores, One Dataset

A Badger store and a memory store that have gone through the same operations are
asked the same questions. They answer alike if and only if every graph name and
triple that was written can be decoded, and every named graph that was written to
still holds a triple: the Badger store never takes a name out of its registry.

## Main definitions

* `SameObservations`: The stores answer alike.
* `Decodes`, `KeepsGraphs`: What it takes.

## Theorems

* `Contents.exists_undecodable`: What cannot be decoded stays.
* `stores_agree_iff`: When the stores answer alike.
-/

namespace GoRdf

open List StoreOp

/-! ## What cannot be decoded stays -/

namespace Contents

variable {ok : Char → Bool} {C : Contents ok}

/-- No operation deletes a quad that cannot be decoded. -/
theorem mem_step_of_undecodable {q : QuadOf ok} (hq : q ∈ C.quads)
    (hnest : q.2.wellNested = false) (op : StoreOp ok) : q ∈ (C.step op).quads := by
  have hdelete : ∀ pat n, C.Decodable pat n → q ∈ (C.delete pat n).quads := by
    intro pat n hdec
    refine Finset.mem_filter.mpr ⟨hq, fun hmatch => ?_⟩
    exact absurd (hdec q hq hmatch.1 hmatch.2) (by rw [hnest]; exact Bool.false_ne_true)
  cases op with
  | add t graph => exact Finset.mem_insert_of_mem hq
  | addN quads =>
    rw [step_addN, (foldl_write C _).1]
    exact Finset.mem_union_left _ hq
  | remove pat graph =>
    rw [step]
    split
    · exact hdelete _ _ ‹_›
    · exact hq
  | set t graph =>
    rw [step]
    split
    · exact Finset.mem_insert_of_mem (hdelete _ _ ‹_›)
    · exact hq

/-- If a run writes something that cannot be decoded, something of the kind is there at
    its end. -/
theorem exists_undecodable {ops : List (StoreOp ok)}
    (h : ∃ q ∈ ops.flatMap writes, q.2.wellNested = false) :
    ∃ q ∈ (run ops).quads, q.2.wellNested = false := by
  induction ops using List.reverseRecOn with
  | nil =>
    obtain ⟨q, hq, -⟩ := h
    cases hq
  | append_singleton ops op ih =>
    rw [run_append]
    by_cases hold : ∃ q ∈ (run ops).quads, q.2.wellNested = false
    · obtain ⟨q, hq, hnest⟩ := hold
      exact ⟨q, mem_step_of_undecodable hq hnest op, hnest⟩
    · -- Everything so far can be decoded, so the operation does not fail.
      obtain ⟨q, hq, hnest⟩ := h
      rw [flatMap_append, flatMap_singleton, mem_append] at hq
      have hwrites : q ∈ op.writes := hq.resolve_left fun hq => hold (ih ⟨q, hq, hnest⟩)
      have hall : ∀ q ∈ (run ops).quads, q.2.wellNested = true := by
        intro q' hq'
        by_contra hne
        exact hold ⟨q', hq', Bool.not_eq_true _ ▸ hne⟩
      refine ⟨q, ?_, hnest⟩
      rw [(step_eq hall _).1]
      exact mem_denote_of_writes hwrites

end Contents

/-! ## Agreement -/

/-- The two stores have the same triples for every pattern and graph, as many, and the
    same named graphs, which are those that hold a triple or the one asked for. -/
structure SameObservations {ok : Char → Bool} (kv : BadgerStore) (m : MemoryStore ok) : Prop where
  triples : ∀ (pat : TriplePatternOf ok) (graph : Option (TermOf ok)),
    ∃ ts, kv.triples pat graph = .ok ts ∧ ∀ t, t ∈ ts ↔ t ∈ m.triples pat graph
  len : ∀ graph : Option (TermOf ok), kv.len graph = m.len graph
  contexts : ∀ triple : Option (TripleOf ok),
    ∃ ns, kv.contexts triple = .ok ns ∧ ∀ n, n ∈ ns ↔ n ∈ m.contexts triple
  inhabited : ∀ (triple : Option (TripleOf ok)) (n : TermOf ok), n ∈ m.contexts triple ↔
    isDefaultGraph (some n) = false ∧ (∃ t, t ∈ m.triples .any (some n)) ∧
      ∀ t ∈ triple, t ∈ m.triples .any (some n)

section

variable {ok : Char → Bool}

/-- Every quad written can be decoded. -/
def Decodes (ops : List (StoreOp ok)) : Prop :=
  ∀ q ∈ ops.flatMap writes, q.2.wellNested = true ∧ ∀ n ∈ q.1, n.wellNested = true

/-- Every named graph written to holds a triple at the end. -/
def KeepsGraphs (ops : List (StoreOp ok)) : Prop :=
  ∀ q ∈ ops.flatMap writes, ∀ n ∈ q.1, ∃ t, (some n, t) ∈ dataset ops

/-- The graph of a quad that was written is addressed by its name. -/
theorem graphName_of_writes {ops : List (StoreOp ok)} {q : QuadOf ok}
    (h : q ∈ ops.flatMap writes) : graphName q.1 = q.1 := by
  obtain ⟨op, -, hq⟩ := mem_flatMap.mp h
  cases op with
  | add t graph =>
    rw [mem_singleton.mp hq]
    exact graphName_graphName graph
  | addN quads =>
    obtain ⟨p, -, rfl⟩ := mem_map.mp hq
    exact graphName_graphName p.2
  | remove pat graph => cases hq
  | set t graph =>
    rw [mem_singleton.mp hq]
    exact graphName_graphName graph

theorem not_isDefaultGraph_iff (n : TermOf ok) :
    isDefaultGraph (some n) = false ↔ graphName (some n) = some n := by
  rw [graphName]
  cases isDefaultGraph (some n) <;> simp

/-- Over a class that refuses NUL, all terms are told apart. -/
theorem memory_run_inv (hnul : ok '\x00' = false) (ops : List (StoreOp ok)) :
    (MemoryStore.run ops).Inv Set.univ (MemoryStore.graphMap ops) :=
  MemoryStore.run_inv (fun _ _ _ _ => TermOf.termKey_injective hnul) fun op _ => op.within_univ

/-- The memory store lists the graphs that hold a triple, or the one asked for. -/
theorem memory_contexts_inhabited (hnul : ok '\x00' = false) (ops : List (StoreOp ok))
    (triple : Option (TripleOf ok)) (n : TermOf ok) : n ∈ (MemoryStore.run ops).contexts triple ↔
      isDefaultGraph (some n) = false ∧ (∃ t, t ∈ (MemoryStore.run ops).triples .any (some n)) ∧
        ∀ t ∈ triple, t ∈ (MemoryStore.run ops).triples .any (some n) := by
  have hinv := memory_run_inv hnul ops
  have hmap := MemoryStore.mem_graphMap ops
  have hread : ∀ t : TripleOf ok, t ∈ (MemoryStore.run ops).triples .any (some n) ↔
      (graphName (some n), t) ∈ dataset ops := fun t =>
    (hinv.toHolds.mem_triples (TriplePatternOf.within_univ _) (fun _ _ => trivial) t).trans
      ((and_iff_left rfl).trans (hmap _ t))
  simp only [hinv.mem_contexts (fun t _ => t.within_univ), hread, not_isDefaultGraph_iff,
    Finset.Nonempty, hmap]
  constructor
  · rintro ⟨⟨t, ht⟩, hall⟩
    have hname : graphName (some n) = some n := graphName_of_writes (mem_dataset ht)
    rw [hname]
    exact ⟨rfl, ⟨t, ht⟩, hall⟩
  · rintro ⟨hname, hex, hall⟩
    rw [hname] at hex hall
    exact ⟨hex, hall⟩

variable {ops : List (StoreOp ok)}

section

variable (hnul : ok '\x00' = false) (hframed : ∀ q ∈ ops.flatMap writes, q.2.Framed)

include hnul hframed

/-- What a Badger store lists after a run that wrote nothing undecodable: every graph that
    was ever written to. -/
theorem badger_contexts (hdec : Decodes ops) (triple : Option (TripleOf ok)) :
    ∃ ns, (BadgerStore.run ops).contexts triple = .ok ns ∧
      ∀ n, n ∈ ns ↔ (∃ q ∈ ops.flatMap writes, q.1 = some n) ∧
        ∀ t ∈ triple, (some n, t) ∈ dataset ops := by
  obtain ⟨hquads, hnames⟩ := Contents.run_eq fun q hq => (hdec q hq).1
  rw [← hquads]
  obtain ⟨ns, hns, hmem⟩ := (BadgerStore.run_inv hnul hframed).contexts_ok hnul triple
    (fun n hn => by
      obtain ⟨q, hq, hname⟩ := (hnames n).mp hn
      exact (hdec q hq).2 n hname)
  refine ⟨ns, hns, fun n => ?_⟩
  rw [hmem, hnames]

/-- A store that answers as the other does has no read that fails. -/
theorem SameObservations.decodes {m : MemoryStore ok}
    (hsame : SameObservations (BadgerStore.run ops) m) : Decodes ops := by
  have hkv := BadgerStore.run_inv hnul hframed
  have hrun : (Contents.run ops).Framed := fun q hq => hframed q (Contents.mem_run hq)
  -- A scan for a triple that cannot be decoded would fail.
  have hnest : ∀ q ∈ ops.flatMap writes, q.2.wellNested = true := by
    by_contra hne
    push Not at hne
    obtain ⟨q, hq, hq'⟩ := hne
    obtain ⟨u, hu, hbad⟩ := Contents.exists_undecodable ⟨q, hq, Bool.not_eq_true _ ▸ hq'⟩
    have hmem : (graphName u.1, u.2) ∈ (Contents.run ops).quads := by
      rw [graphName_of_writes (Contents.mem_run hu)]
      exact hu
    obtain ⟨ts, hts, -⟩ := hsame.triples .any u.1
    obtain ⟨e, he⟩ := hkv.triples_error hnul hrun TriplePatternOf.any hmem rfl hbad
    exact absurd (hts.symm.trans he) (by simp)
  intro q hq
  refine ⟨hnest q hq, fun n hn => ?_⟩
  by_contra hne
  obtain ⟨ns, hns, -⟩ := hsame.contexts none
  obtain ⟨e, he⟩ := hkv.contexts_error hnul none
    (((Contents.run_eq hnest).2 n).mpr ⟨q, hq, hn⟩) (Bool.not_eq_true _ ▸ hne)
  exact absurd (hns.symm.trans he) (by simp)

end

/-- The stores answer alike exactly when everything written can be decoded and no named
    graph has been emptied. -/
theorem stores_agree_iff (hnul : ok '\x00' = false)
    (hframed : ∀ q ∈ ops.flatMap writes, q.2.Framed) :
    SameObservations (BadgerStore.run ops) (MemoryStore.run ops) ↔
      Decodes ops ∧ KeepsGraphs ops := by
  -- Both stores are read through what they hold: quads and names here, a map of graphs there.
  have hkv := BadgerStore.run_inv hnul hframed
  have hm := memory_run_inv hnul ops
  have hread : ∀ (pat : TriplePatternOf ok) graph t,
      t ∈ (MemoryStore.run ops).triples pat graph ↔ _ := fun pat graph =>
    hm.toHolds.mem_triples pat.within_univ fun _ _ => trivial
  have hlist : ∀ triple n, n ∈ (MemoryStore.run ops).contexts triple ↔ _ := fun triple =>
    hm.mem_contexts fun t _ => t.within_univ
  have hmap := MemoryStore.mem_graphMap ops
  constructor
  · intro hsame
    have hdec := hsame.decodes hnul hframed
    refine ⟨hdec, fun q hq n hn => ?_⟩
    -- Badger lists every name that was ever written; memory only those that still have triples.
    obtain ⟨ns, hns, hmem⟩ := badger_contexts hnul hframed hdec none
    obtain ⟨ns', hns', hmem'⟩ := hsame.contexts none
    rw [hns, Except.ok.injEq] at hns'
    rw [← hns'] at hmem'
    have hlisted : n ∈ ns := (hmem n).mpr ⟨⟨q, hq, hn⟩, nofun⟩
    obtain ⟨t, ht⟩ := ((hlist none n).mp ((hmem' n).mp hlisted)).1
    exact ⟨t, (hmap _ t).mp ht⟩
  · rintro ⟨hdec, hkeeps⟩
    obtain ⟨hquads, -⟩ := Contents.run_eq fun q hq => (hdec q hq).1
    refine ⟨fun pat graph => ?_, fun graph => ?_, fun triple => ?_,
      memory_contexts_inhabited hnul ops⟩
    · obtain ⟨ts, hts, -, hmem⟩ := hkv.triples_ok hnul
        (fun q hq => hframed q (Contents.mem_run hq)) pat graph
        fun q hq _ _ => (hdec q (Contents.mem_run hq)).1
      refine ⟨ts, hts, fun t => ?_⟩
      rw [hmem, hquads, hread, hmap]
    · rw [hkv.len_eq hnul, hquads, hm.toHolds.len_eq fun _ _ => trivial]
      congr 1
      ext t
      rw [mem_slice, hmap]
    · obtain ⟨ns, hns, hmem⟩ := badger_contexts hnul hframed hdec triple
      refine ⟨ns, hns, fun n => ?_⟩
      rw [hmem, hlist, Finset.Nonempty]
      simp only [hmap]
      refine and_congr_left fun _ => ⟨?_, ?_⟩
      · rintro ⟨q, hq, hname⟩
        exact hkeeps q hq n hname
      · rintro ⟨t, ht⟩
        exact ⟨(some n, t), mem_dataset ht, rfl⟩

end

theorem iriChar_nul : iriChar '\x00' = false := by
  decide

theorem storedName_valid : "a".toList.all iriChar = true := by decide

/-- `<a>`. -/
def storedName : URIRef := ⟨"a", storedName_valid⟩

/-- `<a> <a> "text"@en`. -/
def storedTriple (text : String) : Triple :=
  ⟨.uri storedName, storedName, .literal ⟨text, .lang ⟨"en", english_valid⟩⟩⟩

/-- Two triples are added to the graph `<a>`, and one is removed. -/
def keepingOps : List (StoreOp iriChar) :=
  [.addN [(storedTriple "x", some storedName.toTerm), (storedTriple "y", some storedName.toTerm)],
    .remove ⟨none, none, some (storedTriple "x").object⟩ (some storedName.toTerm)]

theorem keepingOps_agree :
    (∀ q ∈ keepingOps.flatMap writes, q.2.Framed) ∧
      SameObservations (BadgerStore.run keepingOps) (MemoryStore.run keepingOps) := by
  have hname : graphName (some storedName.toTerm) = some storedName.toTerm := rfl
  have hwrites : ∀ q ∈ keepingOps.flatMap writes, q.1 = some storedName.toTerm ∧
      (q.2 = storedTriple "x" ∨ q.2 = storedTriple "y") := by
    intro q hq
    simp only [keepingOps, flatMap_cons, flatMap_nil, writes, map_cons,
      map_nil, append_nil, mem_cons, not_mem_nil, or_false, hname] at hq
    rcases hq with rfl | rfl
    · exact ⟨rfl, .inl rfl⟩
    · exact ⟨rfl, .inr rfl⟩
  have hframed : ∀ q ∈ keepingOps.flatMap writes, q.2.Framed := by
    intro q hq
    rcases (hwrites q hq).2 with h | h
    · rw [h]
      exact ⟨by decide, by decide, by decide⟩
    · rw [h]
      exact ⟨by decide, by decide, by decide⟩
  refine ⟨hframed, (stores_agree_iff iriChar_nul hframed).mpr ⟨fun q hq => ?_, fun q hq n hn => ?_⟩⟩
  · obtain ⟨hg, h⟩ := hwrites q hq
    refine ⟨?_, fun n hn => ?_⟩
    · rcases h with h | h
      · rw [h]
        decide
      · rw [h]
        decide
    · rw [hg, Option.mem_some] at hn
      rw [← hn]
      decide
  · rw [(hwrites q hq).1] at hn
    refine ⟨storedTriple "y", ?_⟩
    rw [← hn]
    decide

/-- A graph is emptied: the Badger store still lists it. -/
theorem emptied_graph_listed :
    let graph : Option Term := some storedName.toTerm
    let ops : List (StoreOp iriChar) := [.add (storedTriple "x") graph,
      .remove TriplePatternOf.any graph]
    (∃ ns, (BadgerStore.run ops).contexts (none : Option Triple) = .ok ns ∧
        storedName.toTerm ∈ ns) ∧
      (MemoryStore.run ops).contexts none = [] ∧ (BadgerStore.run ops).len graph = 0 := by
  intro graph ops
  have hframed : ∀ q ∈ ops.flatMap writes, q.2.Framed := by
    intro q hq
    rw [mem_singleton.mp hq]
    exact ⟨by decide, by decide, by decide⟩
  have hdec : Decodes ops := by
    intro q hq
    rw [mem_singleton.mp hq]
    exact ⟨by decide, by decide⟩
  have hempty : dataset ops = ∅ := by decide
  refine ⟨?_, ?_, ?_⟩
  · obtain ⟨ns, hns, hmem⟩ := badger_contexts iriChar_nul hframed hdec none
    refine ⟨ns, hns, (hmem _).mpr ⟨⟨_, mem_singleton.mpr rfl, rfl⟩, ?_⟩⟩
    exact nofun
  · refine eq_nil_iff_forall_not_mem.mpr fun n hn => ?_
    obtain ⟨⟨t, ht⟩, -⟩ :=
      ((memory_run_inv iriChar_nul ops).mem_contexts (fun t _ => t.within_univ) n).mp hn
    rw [MemoryStore.mem_graphMap, hempty] at ht
    cases ht
  · rw [(BadgerStore.run_inv iriChar_nul hframed).len_eq iriChar_nul,
      (Contents.run_eq fun q hq => (hdec q hq).1).1, hempty]
    rfl

end GoRdf
