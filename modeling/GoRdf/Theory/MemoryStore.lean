import GoRdf.Core.MemoryStore
import GoRdf.Theory.Dataset
import GoRdf.Theory.StoreGraph

/-!
# The Memory Store Is a Dataset

After every sequence of operations the indexes of a memory store hold the graphs
of the dataset that the operations on sets give, and the named graphs of the
store are those that hold a triple.

A named graph exists from its first write to the removal of its last triple. The
moment between removing triples and dropping the graph is why `Holds`, which
allows an empty named graph, is apart from `Inv`.

## Main definitions

* `MemoryStore.Holds`, `MemoryStore.Inv`: What the indexes hold.
* `MemoryStore.graphMap`: The operations on a map of graphs.

## Theorems

* `MemoryStore.run_inv`: The store after a run.
* `MemoryStore.Holds.mem_triples`, `MemoryStore.Holds.len_eq`, `MemoryStore.Inv.mem_contexts`:
  What is read.
* `MemoryStore.run_is_map`: A store is a map of graphs.
* `MemoryStore.run_reachable`: Its `Reachable` keeps the contract.
-/

namespace GoRdf

open Lib List Option Finset MemoryStore TripleIndex
open Function (update update_self update_of_ne)
open SmallMap (lookup_insert_goMap lookup_erase_goMap)

variable {ok : Char → Bool} {f : TripleIndex ok → TripleIndex ok} {m : MemoryStore ok}
  {T : Set (TermOf ok)} {S : Finset (TripleOf ok)} {graph : Option (TermOf ok)}
  {pat : TriplePatternOf ok}

namespace MemoryStore

/-! ## A map of graphs -/

/-- A map from graph names to sets of triples. -/
abbrev GraphMap (ok : Char → Bool) := Option (TermOf ok) → Finset (TripleOf ok)

/-- An operation on the map. -/
def GraphMap.apply (G : GraphMap ok) : StoreOp ok → GraphMap ok
  | .add t graph => update G (graphName graph) (insert t (G (graphName graph)))
  | .addN quads => quads.foldl
      (fun G q => update G (graphName q.2) (insert q.1 (G (graphName q.2)))) G
  | .remove pat graph => update G (graphName graph)
      ((G (graphName graph)).filter fun t => pat.matches t = false)
  | .set t graph => update G (graphName graph)
      (insert t ((G (graphName graph)).filter fun u =>
        ¬ (u.subject = t.subject ∧ u.predicate = t.predicate)))

/-- The map after a sequence of operations, starting with empty graphs. -/
def graphMap (ops : List (StoreOp ok)) : GraphMap ok :=
  ops.foldl GraphMap.apply fun _ => ∅

/-- The index of each graph holds the triples the map has for it, over terms `T` that
    `TermKey` tells apart. -/
structure Holds (m : MemoryStore ok) (T : Set (TermOf ok)) (G : GraphMap ok) : Prop where
  default : m.default.Inv T (G none)
  named : ∀ k g, m.named.lookup k = some g →
    g.name ∈ T ∧ k = g.name.termKey ∧ g.idx.Inv T (G (some g.name))
  missing : ∀ n ∈ T, m.named.lookup n.termKey = none → G (some n) = ∅
  outside : ∀ n, n ∉ T → G (some n) = ∅

/-- And no named graph is empty. -/
structure Inv (m : MemoryStore ok) (T : Set (TermOf ok)) (G : GraphMap ok) : Prop extends
    m.Holds T G where
  nonempty : ∀ k g, m.named.lookup k = some g → (G (some g.name)).Nonempty

variable {G : GraphMap ok}

theorem inv_new (hT : T.InjOn TermOf.termKey) : newMemoryStore.Inv T fun _ => ∅ where
  default := TripleIndex.inv_new hT
  named k g h := by
    cases h
  missing n _ _ := rfl
  outside n _ := rfl
  nonempty k g h := by
    cases h

/-- The graph under the key of a name has that name. -/
theorem Holds.name_eq (h : m.Holds T G) {n : TermOf ok} (hn : n ∈ T) {g : NamedGraph ok}
    (hg : m.named.lookup n.termKey = some g) : g.name = n :=
  (h.default.apart.keys hn (h.named _ g hg).1 (h.named _ g hg).2.1).symm

/-- The pattern of `Set` matches what has the subject and the predicate of the triple. -/
theorem matches_same (t u : TripleOf ok) :
    (⟨some t.subject, some t.predicate, none⟩ : TriplePatternOf ok).matches u = false ↔
      ¬ (u.subject = t.subject ∧ u.predicate = t.predicate) := by
  rw [← Bool.not_eq_true, TriplePatternOf.matches]
  simp only [all_some, all_none, Bool.and_true, Bool.and_eq_true, beq_iff_eq]
  rw [eq_comm, @eq_comm _ t.predicate]

variable (hgraph : ∀ n ∈ graph, n ∈ T)

include hgraph

/-- The graph a context in the set addresses has its name in the set. -/
theorem graphName_mem : ∀ n ∈ graphName graph, n ∈ T := by
  rw [graphName]
  split
  · exact nofun
  · exact hgraph

/-! ## Writing -/

/-- Changing the index of one graph changes that graph. -/
theorem Holds.writeIndex (h : m.Holds T G)
    (hf : ∀ x : TripleIndex ok, x.Inv T (G (graphName graph)) → (f x).Inv T S) :
    (m.writeIndex graph f).Holds T (update G (graphName graph) S) := by
  have hmem := graphName_mem hgraph
  rw [MemoryStore.writeIndex]
  cases hname : graphName graph with
  | none =>
    rw [hname] at hf
    refine ⟨?_, fun k g hg => ?_, fun n hn hnone => ?_, fun n hn => ?_⟩
    · rw [update_self]
      exact hf _ h.default
    all_goals rw [update_of_ne (some_ne_none _)]
    · exact h.named k g hg
    · exact h.missing n hn hnone
    · exact h.outside n hn
  | some n =>
    rw [hname] at hf hmem
    have hn := hmem n rfl
    -- A graph that is not there yet starts as an empty index.
    have hidx : ((m.named.lookup n.termKey).getD ⟨n, newTripleIndex⟩).name = n ∧
        ((m.named.lookup n.termKey).getD ⟨n, newTripleIndex⟩).idx.Inv T (G (some n)) := by
      cases hlook : m.named.lookup n.termKey with
      | none =>
        rw [h.missing n hn hlook]
        exact ⟨rfl, TripleIndex.inv_new h.default.apart.keys⟩
      | some g =>
        have hinv := (h.named _ g hlook).2.2
        rw [h.name_eq hn hlook] at hinv
        exact ⟨h.name_eq hn hlook, hinv⟩
    refine ⟨?_, fun k g hg => ?_, fun n' hn' hnone => ?_, fun n' hn' => ?_⟩
    · rw [update_of_ne (some_ne_none n).symm]
      exact h.default
    · rw [lookup_insert_goMap] at hg
      split_ifs at hg with hk
      · cases hg
        rw [hidx.1, update_self]
        exact ⟨hn, hk, hf _ hidx.2⟩
      · obtain ⟨hg', hkey, hinv⟩ := h.named k g hg
        rw [update_of_ne fun heq => hk (by rw [hkey, some.inj heq])]
        exact ⟨hg', hkey, hinv⟩
    · rw [lookup_insert_goMap] at hnone
      split_ifs at hnone with hk
      rw [update_of_ne fun heq => hk (by rw [some.inj heq])]
      exact h.missing n' hn' hnone
    · rw [update_of_ne fun heq => hn' (by rw [some.inj heq]; exact hn)]
      exact h.outside n' hn'

/-- A graph after a write is the one written to or was there before. -/
theorem lookup_writeIndex {k : Key} {g : NamedGraph ok}
    (h : (m.writeIndex graph f).Holds T G)
    (hg : (m.writeIndex graph f).named.lookup k = some g) :
    some g.name = graphName graph ∨ m.named.lookup k = some g := by
  have hname := h.named k g hg
  have hmem := graphName_mem hgraph
  rw [writeIndex] at hg
  cases hn : graphName graph with
  | none =>
    rw [hn] at hg
    exact .inr hg
  | some n =>
    rw [hn] at hg hmem
    by_cases hk : k = n.termKey
    · have hkey := hname.2.1.symm.trans hk
      exact .inl (congrArg some (h.default.apart.keys hname.1 (hmem n rfl) hkey))
    · rw [AList.lookup_insert_ne hk] at hg
      exact .inr hg

/-- A write that leaves something in its graph leaves no named graph empty. -/
theorem Inv.writeIndex (h : m.Inv T G)
    (hf : ∀ x : TripleIndex ok, x.Inv T (G (graphName graph)) → (f x).Inv T S)
    (hne : S.Nonempty) : (m.writeIndex graph f).Inv T (update G (graphName graph) S) where
  toHolds := h.toHolds.writeIndex hgraph hf
  nonempty k g hg := by
    by_cases hname : some g.name = graphName graph
    · rw [hname, update_self]
      exact hne
    · rw [update_of_ne hname]
      have hlookup := lookup_writeIndex hgraph (h.toHolds.writeIndex hgraph hf) hg
      exact h.nonempty k g (hlookup.resolve_left hname)

theorem Inv.add (h : m.Inv T G) {t : TripleOf ok} (ht : t.Within T) :
    (m.add t graph).Inv T (update G (graphName graph) (insert t (G (graphName graph)))) :=
  h.writeIndex hgraph (fun _ hx => add_inv hx ht) (insert_nonempty t _)

theorem Inv.set (h : m.Inv T G) {t : TripleOf ok} (ht : t.Within T) :
    (m.set t graph).Inv T (G.apply (.set t graph)) := by
  refine h.writeIndex hgraph (fun x hx => ?_) (insert_nonempty t _)
  rw [← filter_congr fun u _ => matches_same t u]
  refine add_inv (removeMatching_inv hx ⟨?_, ?_, nofun⟩) ht
  · rintro _ ⟨⟩
    exact ht.1
  · rintro _ ⟨⟩
    exact ht.2.1

/-! ## Removing -/

/-- A graph left empty is dropped. -/
theorem Holds.dropIfEmpty (h : m.Holds T G)
    (hne : ∀ k g, m.named.lookup k = some g →
      some g.name = graphName graph ∨ (G (some g.name)).Nonempty) :
    (m.dropIfEmpty graph).Inv T G := by
  have hmem := graphName_mem hgraph
  -- In every branch but one nothing is dropped, and the graph that was touched still has triples.
  have hkeep : (∀ n g, graphName graph = some n → m.named.lookup n.termKey = some g →
      g.idx.count ≠ 0) → m.Inv T G := by
    intro hcount
    refine ⟨h, fun k g hg => (hne k g hg).elim (fun hname => ?_) id⟩
    obtain ⟨-, hk, hinv⟩ := h.named k g hg
    rw [hk] at hg
    rw [← card_pos, ← hinv.count]
    exact Nat.pos_of_ne_zero (hcount g.name g hname.symm hg)
  rw [MemoryStore.dropIfEmpty]
  split
  · rename_i hname
    refine hkeep fun n g hn => ?_
    rw [hname] at hn
    cases hn
  · rename_i n hname
    split
    · rename_i g hg
      split
      · -- The graph goes, and the map has nothing under its name.
        rename_i hcount
        have hempty : G (some n) = ∅ := by
          rw [← card_eq_zero, ← h.name_eq (hmem n hname) hg, ← (h.named _ g hg).2.2.count, hcount]
        have hlook : ∀ k g', (m.named.erase n.termKey).lookup k = some g' →
            k ≠ n.termKey ∧ m.named.lookup k = some g' := by
          intro k g' hg'
          rw [lookup_erase_goMap] at hg'
          exact ite_none_left_eq_some.mp hg'
        refine ⟨⟨h.default, fun k g' hg' => h.named k g' (hlook k g' hg').2,
          fun n' hn' hnone => ?_, h.outside⟩, fun k g' hg' => ?_⟩
        · by_cases hn : n' = n
          · rw [hn]
            exact hempty
          · have hkey : n'.termKey ≠ n.termKey := fun heq =>
              hn (h.default.apart.keys hn' (hmem n hname) heq)
            rw [AList.lookup_erase_ne hkey] at hnone
            exact h.missing n' hn' hnone
        · obtain ⟨hk, hold⟩ := hlook k g' hg'
          refine (hne k g' hold).resolve_left fun heq => hk ?_
          rw [hname] at heq
          rw [(h.named k g' hold).2.1, some.inj heq]
      · rename_i hcount
        refine hkeep fun n' g' hn' hg' => ?_
        rw [hname, some.injEq] at hn'
        rw [← hn', hg, some.injEq] at hg'
        rw [← hg']
        exact hcount
    · rename_i hnone
      refine hkeep fun n' g' hn' hg' => ?_
      rw [hname, some.injEq] at hn'
      rw [← hn', hnone] at hg'
      cases hg'

/-- A graph that has no index has no triples. -/
theorem Holds.eq_empty_of_index_none (h : m.Holds T G) (hidx : m.index graph = none) :
    G (graphName graph) = ∅ := by
  rw [index] at hidx
  cases hname : graphName graph with
  | none =>
    rw [hname] at hidx
    cases hidx
  | some n =>
    rw [hname] at hidx
    exact h.missing n (graphName_mem hgraph n hname) (map_eq_none_iff.mp hidx)

theorem Inv.remove (h : m.Inv T G) (hpat : pat.Within T) :
    (m.remove pat graph).Inv T (G.apply (.remove pat graph)) := by
  rw [MemoryStore.remove, GraphMap.apply]
  split
  · rename_i hidx
    have hempty := h.toHolds.eq_empty_of_index_none hgraph hidx
    rw [hempty, filter_empty, ← hempty, Function.update_eq_self]
    exact h
  · have hwrite := h.toHolds.writeIndex hgraph fun _ hx => removeMatching_inv hx hpat
    refine hwrite.dropIfEmpty hgraph fun k g hg => or_iff_not_imp_left.mpr fun hname => ?_
    rw [update_of_ne hname]
    exact h.nonempty k g ((lookup_writeIndex hgraph hwrite hg).resolve_left hname)

end MemoryStore

/-- All terms of the operation are in the set, the names of its graphs among them. -/
def StoreOp.Within (T : Set (TermOf ok)) : StoreOp ok → Prop
  | .add t graph => t.Within T ∧ ∀ n ∈ graph, n ∈ T
  | .addN quads => ∀ q ∈ quads, q.1.Within T ∧ ∀ n ∈ q.2, n ∈ T
  | .remove pat graph => pat.Within T ∧ ∀ n ∈ graph, n ∈ T
  | .set t graph => t.Within T ∧ ∀ n ∈ graph, n ∈ T

theorem StoreOp.within_univ (op : StoreOp ok) : op.Within Set.univ := by
  cases op with
  | add t graph | set t graph => exact ⟨t.within_univ, fun _ _ => trivial⟩
  | addN quads => exact fun q _ => ⟨q.1.within_univ, fun _ _ => trivial⟩
  | remove pat graph => exact ⟨pat.within_univ, fun _ _ => trivial⟩

namespace MemoryStore

variable {G : GraphMap ok}

/-- Every operation keeps the invariant. -/
theorem Inv.apply (h : m.Inv T G) {op : StoreOp ok} (hop : op.Within T) :
    (m.apply op).Inv T (G.apply op) := by
  cases op with
  | add t graph => exact h.add hop.2 hop.1
  | addN quads =>
    exact foldl_rel (r := fun (m : MemoryStore ok) G => m.Inv T G) h fun q hq _ _ h =>
      h.add (hop q hq).2 (hop q hq).1
  | remove pat graph => exact h.remove hop.2 hop.1
  | set t graph => exact h.set hop.2 hop.1

/-- The store after a run holds the map. -/
theorem run_inv (hT : T.InjOn TermOf.termKey) {ops : List (StoreOp ok)}
    (hops : ∀ op ∈ ops, op.Within T) : (run ops).Inv T (graphMap ops) :=
  foldl_rel (r := fun (m : MemoryStore ok) G => m.Inv T G) (inv_new hT) fun op hop _ _ h =>
    h.apply (hops op hop)

/-! ## Reading -/

/-- The index a context addresses holds the triples of its graph. -/
theorem Holds.index_inv (h : m.Holds T G)
    (hgraph : ∀ n ∈ graph, n ∈ T) {x : TripleIndex ok} (hx : m.index graph = some x) :
    x.Inv T (G (graphName graph)) := by
  rw [index] at hx
  cases hname : graphName graph with
  | none =>
    rw [hname, some.injEq] at hx
    rw [← hx]
    exact h.default
  | some n =>
    rw [hname] at hx
    obtain ⟨g, hg, rfl⟩ := map_eq_some_iff.mp hx
    have hinv := (h.named _ g hg).2.2
    rw [h.name_eq (graphName_mem hgraph n hname) hg] at hinv
    exact hinv

theorem Holds.mem_triples (h : m.Holds T G) (hpat : pat.Within T)
    (hgraph : ∀ n ∈ graph, n ∈ T) (t : TripleOf ok) :
    t ∈ m.triples pat graph ↔ t ∈ G (graphName graph) ∧ pat.matches t = true := by
  rw [triples]
  cases hx : m.index graph with
  | none =>
    rw [h.eq_empty_of_index_none hgraph hx]
    simp
  | some x =>
    obtain ⟨l, hl⟩ := each_spec (h.index_inv hgraph hx) hpat
    rw [map_some, getD_some, hl.triples_eq, hl.mem]

theorem Holds.len_eq (h : m.Holds T G)
    (hgraph : ∀ n ∈ graph, n ∈ T) : m.len graph = (G (graphName graph)).card := by
  rw [len]
  cases hx : m.index graph with
  | none =>
    rw [h.eq_empty_of_index_none hgraph hx]
    rfl
  | some x => exact (h.index_inv hgraph hx).count

/-- `Contexts` lists the named graphs that hold a triple, or the one asked for. -/
theorem Inv.mem_contexts (h : m.Inv T G) {triple : Option (TripleOf ok)}
    (htriple : ∀ t ∈ triple, t.Within T) (n : TermOf ok) :
    n ∈ m.contexts triple ↔ (G (some n)).Nonempty ∧ ∀ t ∈ triple, t ∈ G (some n) := by
  have hhas : ∀ k g, m.named.lookup k = some g →
      (triple.all g.idx.has = true ↔ ∀ t ∈ triple, t ∈ G (some g.name)) := by
    intro k g hg
    cases triple with
    | none => simp
    | some t => simp [(h.named k g hg).2.2.has_iff (htriple t rfl)]
  rw [contexts, List.mem_map]
  constructor
  · rintro ⟨⟨k, g⟩, he, rfl⟩
    rw [mem_filter, ← AList.mem_lookup_iff] at he
    exact ⟨h.nonempty k g he.1, (hhas k g he.1).mp he.2⟩
  · rintro ⟨hne, hall⟩
    -- A name the keys are not told apart on holds nothing.
    have hn : n ∈ T := by
      by_contra hn
      rw [h.outside n hn] at hne
      exact not_nonempty_empty hne
    cases hg : m.named.lookup n.termKey with
    | none =>
      rw [h.missing n hn hg] at hne
      exact absurd hne not_nonempty_empty
    | some g =>
      have hname := h.toHolds.name_eq hn hg
      refine ⟨⟨n.termKey, g⟩, mem_filter.mpr ⟨AList.mem_lookup_iff.mp hg, ?_⟩, hname⟩
      rw [hhas _ g hg, hname]
      exact hall

/-- A name has one graph, so `Contexts` lists it once. -/
theorem Inv.nodup_contexts (h : m.Inv T G) (triple : Option (TripleOf ok)) :
    (m.contexts triple).Nodup := by
  have hentries := m.named.nodupKeys.nodup
  refine (hentries.filter _).map_on fun e he e' he' heq => ?_
  have hkey : ∀ e ∈ m.named.entries, e.1 = e.2.name.termKey := fun e he =>
    (h.named e.1 e.2 (AList.mem_lookup_iff.mpr he)).2.1
  have hmem := mem_of_mem_filter he
  have hmem' := mem_of_mem_filter he'
  exact List.NodupKeys.eq_of_fst_eq m.named.nodupKeys hmem hmem'
    (by rw [hkey e hmem, hkey e' hmem', heq])

theorem graphMap_append (ops : List (StoreOp ok)) (op : StoreOp ok) :
    graphMap (ops ++ [op]) = (graphMap ops).apply op := by
  rw [graphMap, foldl_append]
  rfl

/-- The map and the dataset go through the operations together. -/
theorem mem_graphMap (ops : List (StoreOp ok)) (n : Option (TermOf ok)) (t : TripleOf ok) :
    t ∈ graphMap ops n ↔ (n, t) ∈ dataset ops := by
  have hadd : ∀ (G : GraphMap ok) (D : Finset (QuadOf ok)) (q : TripleOf ok × Option (TermOf ok)),
      (∀ n t, t ∈ G n ↔ (n, t) ∈ D) → ∀ n t,
        t ∈ update G (graphName q.2) (insert q.1 (G (graphName q.2))) n ↔
          (n, t) ∈ insert (graphName q.2, q.1) D := by
    intro G D q h n t
    by_cases hn : n = graphName q.2
    · simp [hn, h]
    · simp [hn, h]
  -- The invariant of both folds: at each graph the map holds the triples of the dataset there.
  refine foldl_rel
    (r := fun (G : GraphMap ok) (D : Finset (QuadOf ok)) => ∀ n t, t ∈ G n ↔ (n, t) ∈ D)
    (fun _ _ => by simp) (fun op hop G D h => ?_) n t
  clear hop
  cases op with
  | add t graph => exact hadd G D (t, graph) h
  | addN quads =>
    rw [StoreOp.denote, GraphMap.apply]
    induction quads generalizing G D with
    | nil => simpa using h
    | cons q quads ih =>
      rw [List.map_cons, toFinset_cons, union_insert, ← insert_union]
      exact ih _ _ (hadd G D q h)
  | remove pat graph =>
    intro n u
    rw [StoreOp.denote, GraphMap.apply]
    by_cases hn : n = graphName graph
    · simp [hn, h, without]
    · simp [hn, h, without]
  | set t graph =>
    intro n u
    rw [StoreOp.denote, GraphMap.apply]
    by_cases hn : n = graphName graph
    · simp [hn, h, without, matches_same]
    · simp [hn, h, without]

/-- The readers that stop early or count agree with the one that lists. -/
def ReadersAgree (m : MemoryStore ok) (pat : TriplePatternOf ok) (graph : Option (TermOf ok)) :
    Prop :=
  (m.triples pat graph).Nodup ∧ m.count pat graph = (m.triples pat graph).length ∧
    m.hasMatch pat graph = !(m.triples pat graph).isEmpty ∧
    ∀ limit offset : Int, m.triplesWithLimit pat graph limit offset =
      if 0 < limit then ((m.triples pat graph).drop offset.toNat).take limit.toNat
      else (m.triples pat graph).drop offset.toNat

theorem Holds.readersAgree (h : m.Holds T G) (hpat : pat.Within T)
    (hgraph : ∀ n ∈ graph, n ∈ T) : m.ReadersAgree pat graph := by
  rw [ReadersAgree, triples, count, hasMatch]
  simp only [triplesWithLimit]
  cases hx : m.index graph with
  | none => simp
  | some x =>
    have hinv := h.index_inv hgraph hx
    obtain ⟨l, hl⟩ := each_spec hinv hpat
    simp only [map_some, getD_some]
    refine ⟨?_, ?_, hasMatch_eq hinv hpat, triplesWithLimit_eq hinv hpat⟩
    · rw [hl.triples_eq]
      exact hl.nodup
    · rw [hl.triples_eq, hl.card]

/-- What the readers say after a run, asked about terms of `T`, is what the map says. -/
structure ShowsMap (T : Set (TermOf ok)) (ops : List (StoreOp ok)) : Prop where
  reads : ∀ pat graph, pat.Within T → (∀ n ∈ graph, n ∈ T) →
    (run ops).ReadersAgree pat graph ∧ ∀ t, t ∈ (run ops).triples pat graph ↔
      t ∈ graphMap ops (graphName graph) ∧ pat.matches t = true
  len : ∀ graph, (∀ n ∈ graph, n ∈ T) →
    (run ops).len graph = (graphMap ops (graphName graph)).card
  contexts : ∀ triple, (∀ t ∈ triple, t.Within T) → ((run ops).contexts triple).Nodup ∧
    ∀ n, n ∈ (run ops).contexts triple ↔
      (graphMap ops (some n)).Nonempty ∧ ∀ t ∈ triple, t ∈ graphMap ops (some n)

/-- The readers only see keys. After one addition they find its object under every term that
    has its key, so that the map is shown only where this is the object. -/
theorem injOn_of_showsMap (hiri : ∃ p : URIRefOf ok, p.toTerm ∈ T)
    (h : ∀ ops, (∀ op ∈ ops, StoreOp.Within T op) → ShowsMap T ops) :
    T.InjOn TermOf.termKey := by
  intro a ha b hb heq
  obtain ⟨p, hp⟩ := hiri
  let t : TripleOf ok := ⟨.uri p, p, a⟩
  have hshows := h [.add t none] (by simpa [StoreOp.Within] using ⟨hp, hp, ha⟩)
  have hread : ∀ o ∈ T, t ∈ (run [.add t none]).triples ⟨none, none, some o⟩ none ↔ o = a := by
    intro o ho
    rw [(hshows.reads ⟨none, none, some o⟩ none ⟨nofun, nofun, by simpa using ho⟩ nofun).2]
    simp [graphMap, GraphMap.apply, TriplePatternOf.matches, t]
  have hkey : (run [.add t none]).triples ⟨none, none, some a⟩ none =
      (run [.add t none]).triples ⟨none, none, some b⟩ none := by
    simp only [triples, TripleIndex.triples, each]
    rw [show optTermKey (some a) = optTermKey (some b) from heq]
  exact ((hread b hb).mp (hkey ▸ (hread a ha).mpr rfl)).symm

/-- A memory store is a map from graph names to sets of triples after every run over some
    terms, exactly when `TermKey` tells these terms apart. In the map an operation changes
    the graphs it names and no other. -/
theorem run_is_map {T : Set (TermOf ok)} (hiri : ∃ p : URIRefOf ok, p.toTerm ∈ T) :
    ((∀ ops, (∀ op ∈ ops, StoreOp.Within T op) → ShowsMap T ops) ↔ T.InjOn TermOf.termKey) ∧
    (∀ (ops : List (StoreOp ok)) t graph u,
      u ∈ graphMap (ops ++ [.set t graph]) (graphName graph) ↔
        u = t ∨ u ∈ graphMap ops (graphName graph) ∧
          ¬ (u.subject = t.subject ∧ u.predicate = t.predicate)) ∧
    ∀ (ops : List (StoreOp ok)) op n, n ∉ op.graphs →
      graphMap (ops ++ [op]) n = graphMap ops n := by
  refine ⟨⟨injOn_of_showsMap hiri, fun hT ops hops => ?_⟩, fun ops t graph u => ?_,
    fun ops op n hn => ?_⟩
  · have hinv := run_inv hT hops
    refine ⟨fun pat graph hpat hgraph => ?_, fun graph => hinv.len_eq, fun triple htriple => ?_⟩
    · exact ⟨hinv.readersAgree hpat hgraph, hinv.mem_triples hpat hgraph⟩
    · exact ⟨hinv.nodup_contexts triple, hinv.mem_contexts htriple⟩
  · rw [graphMap_append, GraphMap.apply, update_self, Finset.mem_insert, Finset.mem_filter]
  · rw [graphMap_append]
    cases op with
    | add t graph | remove pat graph | set t graph =>
      exact update_of_ne (by simpa [StoreOp.graphs] using hn) _ _
    | addN quads =>
      rw [GraphMap.apply]
      -- `AddN` is a loop of additions, each to one of the graphs that are named.
      generalize graphMap ops = G
      induction quads generalizing G with
      | nil => rfl
      | cons q quads ih =>
        simp only [StoreOp.graphs, List.map_cons, List.mem_cons, not_or] at hn
        rw [foldl_cons, ih hn.2, update_of_ne hn.1]

/-- One of them alone is found again. -/
theorem run_is_map_one : ((run [.add emptyTyped[0] none]).triples .any none).length = 1 := by
  have hmap := (@run_is_map _ {t | ∃ u ∈ emptyTyped.take 1, t ∈ [.subject u.subject, u.object]}
    ⟨sampleIri, _, mem_cons_self, mem_cons_self⟩).1.mpr ?_ [.add emptyTyped[0] none] ?_
  · have hread := hmap.reads .any none ⟨nofun, nofun, nofun⟩ nofun
    rw [← hread.1.2.1]
    decide
  · rintro _ ⟨u, hu, ht⟩ _ ⟨u', hu', ht'⟩ heq
    simp only [emptyTyped, take_succ_cons, take_zero, List.mem_singleton] at hu hu'
    rw [hu] at ht
    rw [hu'] at ht'
    simp only [List.mem_cons, not_mem_nil, or_false] at ht ht'
    rcases ht with rfl | rfl <;> rcases ht' with rfl | rfl
    · rfl
    · exact absurd heq (by decide)
    · exact absurd heq (by decide)
    · rfl
  · intro op hop
    rw [List.mem_singleton.mp hop]
    exact ⟨⟨⟨_, mem_cons_self, mem_cons_self⟩, ⟨_, mem_cons_self, mem_cons_self⟩,
      ⟨_, mem_cons_self, mem_cons_of_mem _ mem_cons_self⟩⟩, nofun⟩

/-- Both of them are one triple to the store. -/
theorem empty_datatype_lost :
    (run (emptyTyped.map fun t => .add t none)).len none = 1 ∧
      (graphMap (emptyTyped.map fun t => .add t none) none).card = 2 := by
  decide

/-! ## Reachability -/

theorem mem_neighbours {S : Finset Triple} {x : TripleIndex iriChar} (h : x.Inv Set.univ S)
    {ts : List Triple} (hts : ∀ t, t ∈ ts ↔ t ∈ S) (q : ReachabilityQuery) (a b : Term) :
    b ∈ x.neighbours q a ↔ q.Edge ts a b := by
  have hunder : ∀ {p₁ p₂ p₃ : Pos} {idx : Index iriChar p₁ p₂ p₃}, idx.Represents S → ∀ t,
      t ∈ (eachTop (idx.m.lookup a.termKey) collect []).2 ↔ t ∈ ts ∧ keyAt t p₁ = a.termKey := by
    intro _ _ _ idx h t
    rw [eachTop_lists, forEach_collect, nil_append, hts]
    exact (h.mem_under _).2 t
  have hkey : ∀ c : Term, c.termKey = a.termKey ↔ a = c := fun c => Term.termKey_inj.trans eq_comm
  have hsubject : ∀ t : Triple, keyAt t .s = a.termKey ↔ a = .subject t.subject := fun t =>
    hkey (.subject t.subject)
  simp only [neighbours, ReachabilityQuery.Edge, List.mem_map, List.mem_filter, @eq_comm _ b]
  split
  · simp only [hunder h.osp, keyAt, hkey, and_assoc, and_left_comm]
  · simp only [hunder h.spo, hsubject, and_assoc, and_left_comm]

theorem Holds.mem_reachable {m : MemoryStore iriChar} {G : GraphMap iriChar}
    (h : m.Holds Set.univ G) (graph : Option Term) (q : ReachabilityQuery) :
    (m.reachable graph q).Nodup ∧ ∀ v, v ∈ m.reachable graph q ↔
      Relation.TransGen (q.Edge (m.triples .any graph)) q.start v := by
  have hgraph : ∀ n ∈ graph, n ∈ (Set.univ : Set Term) := fun _ _ => trivial
  have hts : ∀ t, t ∈ m.triples .any graph ↔ t ∈ G (graphName graph) := fun t =>
    (h.mem_triples (TriplePatternOf.within_univ _) hgraph t).trans (and_iff_left rfl)
  rw [reachable]
  cases hx : m.index graph with
  | none =>
    refine ⟨nodup_nil, fun v => ⟨nofun, fun hv => ?_⟩⟩
    obtain ⟨_, -, t, ht, -⟩ := Relation.TransGen.tail'_iff.mp hv
    rw [hts, h.eq_empty_of_index_none hgraph hx] at ht
    cases ht
  | some x =>
    have hinv := h.index_inv hgraph hx
    have hkey : Function.Injective (TermOf.termKey : Term → Key) := fun _ _ => Term.termKey_inj.mp
    have hedge : (fun a b => b ∈ x.neighbours q a) = q.Edge (m.triples .any graph) :=
      funext₂ fun a b => propext (mem_neighbours hinv hts q a b)
    -- Every node but the start is an end of a triple, so the triples bound the queue.
    let ends := (G (graphName graph)).image fun t => keyAt t (if q.inverse then .s else .o)
    have hends : ∀ a, Relation.ReflTransGen (fun a b => b ∈ x.neighbours q a) q.start a →
        a.termKey ∈ insert q.start.termKey ends := by
      rw [hedge]
      rintro a (_ | ⟨-, t, ht, -, hstep⟩)
      · exact mem_insert_self _ _
      · refine mem_insert_of_mem (mem_image.mpr ⟨t, (hts t).mp ht, ?_⟩)
        split at hstep <;> simp [*, keyAt, TermOf.termKey]
    have hcard : ends.card ≤ x.count := hinv.count ▸ card_image_le
    have hinsert := card_insert_le q.start.termKey ends
    obtain ⟨hrun, hempty⟩ := Exploring.advance hends (.start [] (by simp) nodup_nil)
      (n := x.count + 2) (by simp; omega)
    refine ⟨(nodup_fresh _ _).of_map _, fun v => ?_⟩
    rw [map_some, getD_some, TripleIndex.reachable, mem_fresh_iff fun _ _ _ _ heq => hkey heq,
      hrun.mem_successors hempty hkey, hedge]
    exact and_iff_left not_mem_nil

/-- After every run the store keeps the contract of `ReachabilityStore`, which the path
    evaluator relies on. -/
theorem run_reachable (ops : List (StoreOp iriChar)) (graph : Option Term) :
    ∃ rs : Reachability ((run ops).triples .any graph),
      ∀ q, rs.reachable q = some ((run ops).reachable graph q) := by
  have hops : ∀ op ∈ ops, op.Within Set.univ := fun op _ => op.within_univ
  have h := (run_inv Term.injOn_termKey hops).toHolds.mem_reachable graph
  refine ⟨⟨fun q => some ((run ops).reachable graph q), ?_, ?_⟩, fun q => rfl⟩
  · rintro q l ⟨⟩
    exact (h q).1
  · rintro q l ⟨⟩
    exact (h q).2

end MemoryStore

end GoRdf
