import Mathlib.Data.List.ReduceOption
import GoRdf.Lib.Fallible
import GoRdf.Theory.BadgerKeys

/-!
# What the Badger Store Holds

The map holds, for a set of quads, each quad's triple under its three keys, and
for a set of names a registry entry each, and nothing else. Every operation keeps
such a pair of sets: writes add to both, deletions take quads away and leave the
registry. The readers are determined by the two sets.

A quad whose triple cannot be decoded stays: every scan that meets it fails, and
the operation with it.

## Main definitions

* `Entry`, `BadgerStore.Holds`: What the map holds.
* `Contents`, `Contents.step`: The two sets, and what an operation does to them.

## Theorems

* `Holds.put`, `Holds.drop`: Writing and deleting one triple.
* `Holds.triples_ok`, `Holds.triples_error`, `Holds.len_eq`: What is read.
* `BadgerStore.run_holds`: What the store holds after a run.
-/

namespace GoRdf

open Lib List BadgerStore StoreOp

section

variable {ok : Char → Bool} {n : Option (TermOf ok)} {t : TripleOf ok}
  {pat : TriplePatternOf ok} {ops : List (StoreOp ok)}

/-! ## Entries -/

/-- The entries for a set of quads and a set of registered names. -/
def Entry (D : Finset (QuadOf ok)) (R : Finset (TermOf ok)) (k v : List Char) : Prop :=
  (∃ fam ∈ indexes, ∃ q ∈ D, k = indexKey fam (nameKey q.1) q.2 ∧ v = encodeTriple q.2) ∨
    ∃ n ∈ R, k = ctxKey n.termKey ∧ v = []

/-- The map has these entries and no others. -/
def BadgerStore.Holds (kv : BadgerStore) (D : Finset (QuadOf ok)) (R : Finset (TermOf ok)) : Prop :=
  ∀ k v, kv.lookup k = some v ↔ Entry D R k v

theorem ctxKey_ne_indexKey {fam : Family} (hfam : fam ∈ indexes) (gk gk' : Key)
    (t : TripleOf ok) : ctxKey gk ≠ indexKey fam gk' t := by
  intro h
  simp only [indexes, mem_cons, not_mem_nil, or_false] at hfam
  rcases hfam with rfl | rfl | rfl <;>
    simp [ctxKey, indexKey, Family.letter] at h

theorem entry_index_iff (hnul : ok '\x00' = false) {D : Finset (QuadOf ok)}
    {R : Finset (TermOf ok)} {fam : Family} (hfam : fam ∈ indexes) {v : List Char} :
    Entry D R (indexKey fam (nameKey n) t) v ↔ (n, t) ∈ D ∧ v = encodeTriple t := by
  constructor
  · rintro (⟨fam', hfam', q, hq, hk, hv⟩ | ⟨m, -, hk, -⟩)
    · obtain ⟨-, hn, ht⟩ := indexKey_inj hnul hfam hfam' hk
      rw [hn, ht]
      exact ⟨hq, hv⟩
    · exact absurd hk.symm (ctxKey_ne_indexKey hfam _ _ _)
  · rintro ⟨hq, hv⟩
    exact .inl ⟨fam, hfam, (n, t), hq, rfl, hv⟩

theorem entry_ctx_iff (hnul : ok '\x00' = false) {D : Finset (QuadOf ok)}
    {R : Finset (TermOf ok)} {n : TermOf ok} {v : List Char} :
    Entry D R (ctxKey n.termKey) v ↔ n ∈ R ∧ v = [] := by
  constructor
  · rintro (⟨fam, hfam, q, -, hk, -⟩ | ⟨m, hm, hk, hv⟩)
    · exact absurd hk (ctxKey_ne_indexKey hfam _ _ _)
    · simp only [ctxKey, List.cons.injEq, true_and] at hk
      rw [TermOf.termKey_injective hnul hk]
      exact ⟨hm, hv⟩
  · rintro ⟨hn, hv⟩
    exact .inr ⟨n, hn, rfl, hv⟩

namespace BadgerStore

variable {kv : BadgerStore} {D : Finset (QuadOf ok)} {R : Finset (TermOf ok)}

/-- A triple as a scan passes it on. -/
def keyed (t : TripleOf ok) : Key × Key × Key × TripleOf ok :=
  (t.subject.termKey, t.predicate.termKey, t.object.termKey, t)

/-- A pattern that leaves a position open is covered. -/
theorem covered_eq (h : ∀ s p o, pat ≠ ⟨some s, some p, some o⟩) : covered pat = pat := by
  obtain ⟨s, p, o⟩ := pat
  cases s <;> cases p <;> cases o <;> first | rfl | exact absurd rfl (h _ _ _)

theorem matches_exact (t u : TripleOf ok) :
    (TriplePatternOf.mk (some t.subject) (some t.predicate) (some t.object)).matches u = true ↔
      u = t := by
  obtain ⟨s, p, o⟩ := t
  obtain ⟨s', p', o'⟩ := u
  simp only [TriplePatternOf.matches, Option.all_some, Bool.and_eq_true, beq_iff_eq,
    TripleOf.mk.injEq, and_assoc]
  exact and_congr eq_comm (and_congr eq_comm eq_comm)

theorem scanTriples_scan (h : ∀ s p o, pat ≠ ⟨some s, some p, some o⟩) (gk : Key) :
    kv.scanTriples pat gk = (kv.iteratePrefix (scanPrefix pat gk)).map (List.map keyed) := by
  rw [scanTriples.eq_def]
  split
  · exact absurd rfl (h _ _ _)
  · rfl

/-! ## Writing -/

/-- The entries of one quad. -/
theorem lookup_put {k v : List Char} :
    (kv.put (nameKey n) t).lookup k = some v ↔
      (∃ m ∈ n, k = ctxKey m.termKey ∧ v = []) ∨
      (∀ m ∈ n, k ≠ ctxKey m.termKey) ∧
        (((∃ fam ∈ indexes, k = indexKey fam (nameKey n) t) ∧ v = encodeTriple t) ∨
          (∀ fam ∈ indexes, k ≠ indexKey fam (nameKey n) t) ∧ kv.lookup k = some v) := by
  have hindex : ∀ v, (((kv.insert (indexKey .spo (nameKey n) t) (encodeTriple t)).insert
      (indexKey .pos (nameKey n) t) (encodeTriple t)).insert
      (indexKey .osp (nameKey n) t) (encodeTriple t)).lookup k = some v ↔
      ((∃ fam ∈ indexes, k = indexKey fam (nameKey n) t) ∧ v = encodeTriple t) ∨
        (∀ fam ∈ indexes, k ≠ indexKey fam (nameKey n) t) ∧ kv.lookup k = some v := by
    simp only [lookup_insert_iff, indexes, mem_cons, not_mem_nil, or_false,
      exists_eq_or_imp, exists_eq_left, forall_eq_or_imp, forall_eq]
    tauto
  rw [put]
  rw [spoKey_eq, posKey_eq, ospKey_eq]
  cases n with
  | none =>
    rw [if_neg (by simp [nameKey]), hindex]
    simp
  | some m =>
    have hkey : nameKey (some m) = m.termKey := rfl
    rw [if_pos (by rw [hkey]; exact objectKey_ne_nil m), lookup_insert_iff, hindex, hkey]
    simp

variable (hnul : ok '\x00' = false) (h : kv.Holds D R)

include hnul h

/-- Writing a triple adds its quad, and registers its graph. -/
theorem Holds.put (n : Option (TermOf ok)) (t : TripleOf ok) :
    (kv.put (nameKey n) t).Holds (insert (n, t) D) (R ∪ n.toFinset) := by
  intro k v
  rw [lookup_put, h k v]
  constructor
  · rintro (⟨m, hm, hk, hv⟩ | ⟨-, ⟨⟨fam, hfam, hk⟩, hv⟩ | ⟨-, hentry⟩⟩)
    · exact .inr ⟨m, Finset.mem_union_right R (Option.mem_toFinset.mpr hm), hk, hv⟩
    · exact .inl ⟨fam, hfam, (n, t), Finset.mem_insert_self _ _, hk, hv⟩
    · exact hentry.imp
        (fun ⟨fam, hfam, q, hq, hkv⟩ => ⟨fam, hfam, q, Finset.mem_insert_of_mem hq, hkv⟩)
        (fun ⟨m, hm, hkv⟩ => ⟨m, Finset.mem_union_left _ hm, hkv⟩)
  · intro hentry
    by_cases hctx : ∃ m ∈ n, k = ctxKey m.termKey
    · obtain ⟨m, hm, rfl⟩ := hctx
      exact .inl ⟨m, hm, rfl, ((entry_ctx_iff hnul).mp hentry).2⟩
    refine .inr ⟨fun m hm hk => hctx ⟨m, hm, hk⟩, ?_⟩
    by_cases hidx : ∃ fam ∈ indexes, k = indexKey fam (nameKey n) t
    · obtain ⟨fam, hfam, rfl⟩ := hidx
      exact .inl ⟨⟨fam, hfam, rfl⟩, ((entry_index_iff hnul hfam).mp hentry).2⟩
    refine .inr ⟨fun fam hfam hk => hidx ⟨fam, hfam, hk⟩, ?_⟩
    -- The entry is neither the new quad's nor the new name's.
    rcases hentry with ⟨fam, hfam, q, hq, hk, hv⟩ | ⟨m, hm, hk, hv⟩
    · rcases Finset.mem_insert.mp hq with rfl | hq
      · exact absurd ⟨fam, hfam, hk⟩ hidx
      · exact .inl ⟨fam, hfam, q, hq, hk, hv⟩
    · rcases Finset.mem_union.mp hm with hm | hm
      · exact .inr ⟨m, hm, hk, hv⟩
      · exact absurd ⟨m, Option.mem_toFinset.mp hm, hk⟩ hctx

/-- Deleting a triple takes its quad away. -/
theorem Holds.drop (n : Option (TermOf ok)) (t : TripleOf ok) :
    (kv.drop (nameKey n) t.subject.termKey t.predicate.termKey t.object.termKey).Holds
      (D.erase (n, t)) R := by
  intro k v
  rw [BadgerStore.drop, spoKey_eq, posKey_eq, ospKey_eq]
  simp only [lookup_erase_iff]
  rw [h k v]
  constructor
  · rintro ⟨hosp, hpos, hspo, hentry⟩
    refine hentry.imp_left fun ⟨fam, hfam, q, hq, hk, hv⟩ => ⟨fam, hfam, q, ?_, hk, hv⟩
    refine Finset.mem_erase.mpr ⟨?_, hq⟩
    rintro rfl
    simp only [indexes, mem_cons, not_mem_nil, or_false] at hfam
    rcases hfam with rfl | rfl | rfl
    · exact hspo hk
    · exact hpos hk
    · exact hosp hk
  · intro hentry
    have hne : ∀ fam ∈ indexes, k ≠ indexKey fam (nameKey n) t := by
      rintro fam hfam rfl
      exact Finset.notMem_erase _ _ ((entry_index_iff hnul hfam).mp hentry).1
    refine ⟨hne _ (by decide), hne _ (by decide), hne _ (by decide), ?_⟩
    exact hentry.imp_left fun ⟨fam, hfam, q, hq, hkv⟩ =>
      ⟨fam, hfam, q, Finset.mem_of_mem_erase hq, hkv⟩

/-- Deleting triples one after another. -/
theorem Holds.foldl_drop (n : Option (TermOf ok)) (ts : List (TripleOf ok)) :
    ((ts.map keyed).foldl (fun kv tk => kv.drop (nameKey n) tk.1 tk.2.1 tk.2.2.1) kv).Holds
      (D.filter fun q => ¬ (q.1 = n ∧ q.2 ∈ ts)) R := by
  induction ts generalizing kv D with
  | nil => simpa using h
  | cons t ts ih =>
    rw [map_cons, foldl_cons]
    have hset : (D.filter fun q => ¬ (q.1 = n ∧ q.2 ∈ t :: ts)) =
        (D.erase (n, t)).filter fun q => ¬ (q.1 = n ∧ q.2 ∈ ts) := by
      ext ⟨m, u⟩
      simp only [Finset.mem_filter, Finset.mem_erase, mem_cons, ne_eq, Prod.mk.injEq]
      tauto
    rw [hset]
    exact ih (h.drop hnul n t)

/-! ## Reading -/

theorem Holds.lookup_spo (n : Option (TermOf ok)) (t : TripleOf ok) (v : List Char) :
    kv.lookup (indexKey .spo (nameKey n) t) = some v ↔ (n, t) ∈ D ∧ v = encodeTriple t := by
  rw [h, entry_index_iff hnul (by decide)]

/-- What a scan by a prefix visits: the quads of the graph that match the positions the
    prefix covers, each under its key in the index scanned. -/
theorem Holds.mem_scan (pat : TriplePatternOf ok) (n : Option (TermOf ok)) (e : Key × List Char) :
    e ∈ scan kv (fun k => (scanPrefix pat (nameKey n)).isPrefixOf k) ↔
      ∃ t, (n, t) ∈ D ∧ (covered pat).matches t = true ∧
        e = (indexKey (scanFamily pat) (nameKey n) t, encodeTriple t) := by
  obtain ⟨k, v⟩ := e
  rw [Lib.mem_scan, h k v, isPrefixOf_iff_prefix]
  constructor
  · rintro ⟨⟨fam, hfam, q, hq, rfl, rfl⟩ | ⟨m, -, rfl, -⟩, hpre⟩
    · -- The first letter of the prefix tells the family.
      have hfamily : fam = scanFamily pat := by
        rw [scanPrefix_eq, indexKey] at hpre
        simp only [cons_append, cons_prefix_cons] at hpre
        exact Family.letter_injective hpre.1.symm
      rw [hfamily] at hpre
      obtain ⟨hn, hmatch⟩ := (scanPrefix_isPrefix_iff hnul pat n q.1 q.2).mp hpre
      refine ⟨q.2, ?_, hmatch, by rw [hfamily, hn]⟩
      rw [← hn]
      exact hq
    · rw [scanPrefix_eq, ctxKey, cons_append, cons_prefix_cons] at hpre
      have hctx : scanFamily pat = .ctx := Family.letter_injective hpre.1
      exact absurd (scanFamily_mem pat) (by rw [hctx]; decide)
  · rintro ⟨t, ht, hmatch, heq⟩
    obtain ⟨rfl, rfl⟩ := heq
    exact ⟨.inl ⟨_, scanFamily_mem pat, (n, t), ht, rfl, rfl⟩,
      (scanPrefix_isPrefix_iff hnul pat n n t).mpr ⟨rfl, hmatch⟩⟩

variable (hframed : ∀ q ∈ D, q.2.Framed)

include hframed

/-- A scan yields the triples that match, if all of them can be decoded. -/
theorem Holds.iteratePrefix_ok (pat : TriplePatternOf ok) (n : Option (TermOf ok))
    (hnest : ∀ t, (n, t) ∈ D → (covered pat).matches t = true → t.wellNested = true) :
    ∃ ts : List (TripleOf ok), kv.iteratePrefix (scanPrefix pat (nameKey n)) = .ok ts ∧
      ts.Nodup ∧ ∀ t, t ∈ ts ↔ (n, t) ∈ D ∧ (covered pat).matches t = true := by
  have hread : ∀ t, (n, t) ∈ D → (covered pat).matches t = true →
      decodeTriple (encodeTriple t) = .ok t := fun t ht hmatch =>
    decodeTriple_of_wellNested hnul (hframed _ ht) (hnest t ht hmatch)
  obtain ⟨ts, hts, hall⟩ := mapM_ok
    (fun e : Key × List Char => (decodeTriple e.2 : Except BadgerError (TripleOf ok)))
    (scan kv fun k => (scanPrefix pat (nameKey n)).isPrefixOf k) (by
      intro e he
      obtain ⟨t, ht, hmatch, rfl⟩ := (h.mem_scan hnul pat n e).mp he
      exact ⟨t, hread t ht hmatch⟩)
  refine ⟨ts, hts, nodup_results hall (nodup_scan _ _) ?_, fun t => ?_⟩
  · -- Two entries of one triple have one value, and entries are told apart by their keys.
    intro e he e' he' t hdec hdec'
    obtain ⟨u, hu, hmatch, rfl⟩ := (h.mem_scan hnul pat n e).mp he
    obtain ⟨u', hu', hmatch', rfl⟩ := (h.mem_scan hnul pat n e').mp he'
    rw [hread u hu hmatch, Except.ok.injEq] at hdec
    rw [hread u' hu' hmatch', Except.ok.injEq] at hdec'
    rw [hdec, hdec']
  · rw [mem_results_iff hall]
    constructor
    · rintro ⟨e, he, hdec⟩
      obtain ⟨u, hu, hmatch, rfl⟩ := (h.mem_scan hnul pat n e).mp he
      rw [hread u hu hmatch, Except.ok.injEq] at hdec
      rw [← hdec]
      exact ⟨hu, hmatch⟩
    · rintro ⟨ht, hmatch⟩
      exact ⟨_, (h.mem_scan hnul pat n _).mpr ⟨t, ht, hmatch, rfl⟩, hread t ht hmatch⟩

/-- It fails at a triple that cannot be decoded. -/
theorem Holds.iteratePrefix_error (pat : TriplePatternOf ok) (ht : (n, t) ∈ D)
    (hmatch : (covered pat).matches t = true) (hnest : t.wellNested = false) :
    ∃ e, (kv.iteratePrefix (scanPrefix pat (nameKey n)) :
      Except BadgerError (List (TripleOf ok))) = .error e := by
  obtain ⟨e, he⟩ := decodeTriple_of_not_wellNested hnul (hframed _ ht) hnest
  exact mapM_error _ _ ⟨_, (h.mem_scan hnul pat n _).mpr ⟨t, ht, hmatch, rfl⟩, e, he⟩

/-- `scanTriplesInTxn` finds the triples that match, if all of them can be decoded. -/
theorem Holds.scanTriples_ok (pat : TriplePatternOf ok) (n : Option (TermOf ok))
    (hnest : ∀ t, (n, t) ∈ D → pat.matches t = true → t.wellNested = true) :
    ∃ ts : List (TripleOf ok), kv.scanTriples pat (nameKey n) = .ok (ts.map keyed) ∧
      ts.Nodup ∧ ∀ t, t ∈ ts ↔ (n, t) ∈ D ∧ pat.matches t = true := by
  by_cases hpat : ∀ s p o, pat ≠ ⟨some s, some p, some o⟩
  · rw [scanTriples_scan hpat]
    rw [← covered_eq hpat] at hnest
    obtain ⟨ts, hts, hnodup, hmem⟩ := h.iteratePrefix_ok hnul hframed pat n hnest
    rw [covered_eq hpat] at hmem
    exact ⟨ts, by rw [hts]; rfl, hnodup, hmem⟩
  · push Not at hpat
    obtain ⟨s, p, o, rfl⟩ := hpat
    -- A pattern with no open position is one triple, looked up by its key.
    have hexact := matches_exact (TripleOf.mk s p o)
    have hlookup := h.lookup_spo hnul n ⟨s, p, o⟩
    rw [← spoKey_eq] at hlookup
    simp only [scanTriples]
    by_cases ht : (n, TripleOf.mk s p o) ∈ D
    · have hread := decodeTriple_of_wellNested hnul (hframed _ ht) (hnest _ ht ((hexact _).mpr rfl))
      refine ⟨[⟨s, p, o⟩], ?_, nodup_singleton _, fun u => ?_⟩
      · rw [(hlookup _).mpr ⟨ht, rfl⟩]
        dsimp only
        rw [hread]
        rfl
      · rw [mem_singleton, hexact]
        exact ⟨fun hu => ⟨hu ▸ ht, hu⟩, fun hu => hu.2⟩
    · refine ⟨[], ?_, nodup_nil, fun u => ?_⟩
      · have hnone : kv.lookup (spoKey (nameKey n) s.termKey p.termKey o.termKey) = none :=
          Option.eq_none_iff_forall_ne_some.mpr fun v hv => ht ((hlookup v).mp hv).1
        rw [hnone]
        rfl
      · rw [hexact]
        exact ⟨nofun, fun hu => absurd (hu.2 ▸ hu.1) ht⟩

/-- It fails at a triple that cannot be decoded. -/
theorem Holds.scanTriples_error (pat : TriplePatternOf ok) (ht : (n, t) ∈ D)
    (hmatch : pat.matches t = true) (hnest : t.wellNested = false) :
    ∃ e, kv.scanTriples pat (nameKey n) = .error e := by
  by_cases hpat : ∀ s p o, pat ≠ ⟨some s, some p, some o⟩
  · rw [scanTriples_scan hpat]
    rw [← covered_eq hpat] at hmatch
    obtain ⟨e, he⟩ := h.iteratePrefix_error hnul hframed pat ht hmatch hnest
    exact ⟨e, by rw [he]; rfl⟩
  · push Not at hpat
    obtain ⟨s, p, o, rfl⟩ := hpat
    rw [(matches_exact (TripleOf.mk s p o) t).mp hmatch] at ht hnest
    obtain ⟨e, he⟩ := decodeTriple_of_not_wellNested hnul (hframed _ ht) hnest
    have hlookup := (h.lookup_spo hnul n ⟨s, p, o⟩ _).mpr ⟨ht, rfl⟩
    rw [← spoKey_eq] at hlookup
    refine ⟨e, ?_⟩
    simp only [scanTriples]
    rw [hlookup]
    dsimp only
    rw [he]
    rfl

end BadgerStore

/-! ## Operations -/

/-- The quads of a store, and the names in its registry. -/
structure Contents (ok : Char → Bool) where
  quads : Finset (QuadOf ok)
  names : Finset (TermOf ok)

namespace Contents

/-- A store with nothing in it. -/
def empty : Contents ok :=
  ⟨∅, ∅⟩

/-- A quad is written, and its graph registered. -/
def write (C : Contents ok) (q : QuadOf ok) : Contents ok :=
  ⟨insert q C.quads, C.names ∪ q.1.toFinset⟩

/-- The triples of a graph that match are deleted, and the registry stays. -/
def delete (C : Contents ok) (pat : TriplePatternOf ok) (n : Option (TermOf ok)) : Contents ok :=
  ⟨without C.quads pat n, C.names⟩

/-- Every triple of the graph that matches can be decoded. -/
def Decodable (C : Contents ok) (pat : TriplePatternOf ok) (n : Option (TermOf ok)) : Prop :=
  ∀ q ∈ C.quads, q.1 = n → pat.matches q.2 = true → q.2.wellNested = true

instance (C : Contents ok) (pat : TriplePatternOf ok) (n : Option (TermOf ok)) :
    Decidable (C.Decodable pat n) :=
  inferInstanceAs (Decidable (∀ q ∈ C.quads, _))

/-- What an operation does to the contents of a Badger store. -/
def step (C : Contents ok) : StoreOp ok → Contents ok
  | .add t graph => C.write (graphName graph, t)
  | .addN quads => quads.foldl (fun C q => C.write (graphName q.2, q.1)) C
  | .remove pat graph =>
    if C.Decodable pat (graphName graph) then C.delete pat (graphName graph) else C
  | .set t graph =>
    let pat : TriplePatternOf ok := ⟨some t.subject, some t.predicate, none⟩
    if C.Decodable pat (graphName graph) then
      (C.delete pat (graphName graph)).write (graphName graph, t)
    else C

/-- The contents after a sequence of operations. -/
def run (ops : List (StoreOp ok)) : Contents ok :=
  ops.foldl step empty

/-- The lengths of all keys fit their fields. -/
def Framed (C : Contents ok) : Prop :=
  ∀ q ∈ C.quads, q.2.Framed

end Contents

/-- The map has the entries of the contents, whose names are all registered. -/
structure BadgerStore.Inv (kv : BadgerStore) (C : Contents ok) : Prop where
  holds : kv.Holds C.quads C.names
  registered : ∀ q ∈ C.quads, q.1.toFinset ⊆ C.names

namespace BadgerStore

variable {kv : BadgerStore} {C : Contents ok}

theorem inv_empty : BadgerStore.Inv ∅ (Contents.empty : Contents ok) :=
  ⟨fun k v => by simp [Entry, Contents.empty], nofun⟩

variable (hnul : ok '\x00' = false) (h : kv.Inv C)

include hnul h

theorem Inv.put (q : QuadOf ok) :
    (kv.put (nameKey q.1) q.2).Inv (C.write q) where
  holds := h.holds.put hnul q.1 q.2
  registered q' hq' := by
    rcases Finset.mem_insert.mp hq' with rfl | hq'
    · exact Finset.subset_union_right
    · exact (h.registered q' hq').trans Finset.subset_union_left

theorem Inv.add (t : TripleOf ok) (graph : Option (TermOf ok)) :
    (kv.add t graph).Inv (C.write (graphName graph, t)) := by
  rw [BadgerStore.add]
  rw [graphKey_eq, spoKey_eq]
  split
  · -- The triple is there already, and then so is its graph.
    rename_i hsome
    obtain ⟨v, hv⟩ := Option.isSome_iff_exists.mp hsome
    have hmem := ((h.holds.lookup_spo hnul _ t v).mp hv).1
    have hsame : C.write (graphName graph, t) = C := by
      rw [Contents.write, Finset.insert_eq_of_mem hmem,
        Finset.union_eq_left.mpr (h.registered _ hmem)]
    rw [hsame]
    exact h
  · exact h.put hnul (graphName graph, t)

theorem Inv.addN (quads : List (TripleOf ok × Option (TermOf ok))) :
    (kv.addN quads).Inv (C.step (.addN quads)) := by
  rw [BadgerStore.addN, Contents.step]
  induction quads generalizing kv C with
  | nil => exact h
  | cons q quads ih =>
    rw [foldl_cons]
    refine ih ?_
    rw [graphKey_eq]
    exact h.put hnul (graphName q.2, q.1)

/-- Deleting the triples a scan has found. -/
theorem Inv.delete (pat : TriplePatternOf ok) (n : Option (TermOf ok))
    {ts : List (TripleOf ok)} (hts : ∀ t, t ∈ ts ↔ (n, t) ∈ C.quads ∧ pat.matches t = true) :
    ((ts.map keyed).foldl (fun kv tk => kv.drop (nameKey n) tk.1 tk.2.1 tk.2.2.1) kv).Inv
      (C.delete pat n) := by
  have hset : (C.delete pat n).quads = C.quads.filter fun q => ¬ (q.1 = n ∧ q.2 ∈ ts) := by
    refine Finset.filter_congr fun q hq => not_congr ?_
    refine and_congr_right fun hn => ?_
    rw [hts, ← hn]
    exact ⟨fun hm => ⟨hq, hm⟩, fun hm => hm.2⟩
  refine ⟨?_, fun q hq => h.registered q (Finset.mem_of_mem_filter q hq)⟩
  rw [hset]
  exact h.holds.foldl_drop hnul n ts

theorem Inv.scanTriples_undecodable (hframed : C.Framed) (hdec : ¬ C.Decodable pat n) :
    ∃ e, kv.scanTriples pat (nameKey n) = .error e := by
  simp only [Contents.Decodable, not_forall, Bool.not_eq_true] at hdec
  obtain ⟨q, hq, hn, hmatch, hnest⟩ := hdec
  rw [← hn]
  exact h.holds.scanTriples_error hnul hframed pat hq hmatch hnest

theorem Inv.remove (hframed : C.Framed) (pat : TriplePatternOf ok)
    (graph : Option (TermOf ok)) :
    ((kv.remove pat graph).toOption.getD kv).Inv (C.step (.remove pat graph)) := by
  rw [Contents.step, BadgerStore.remove, graphKey_eq]
  split
  · rename_i hdec
    obtain ⟨ts, hts, -, hmem⟩ := h.holds.scanTriples_ok hnul hframed pat (graphName graph)
      fun t ht => hdec (graphName graph, t) ht rfl
    rw [hts]
    exact h.delete hnul pat (graphName graph) hmem
  · rename_i hdec
    obtain ⟨e, he⟩ := h.scanTriples_undecodable hnul hframed hdec
    rw [he]
    exact h

theorem Inv.set (hframed : C.Framed) (t : TripleOf ok) (graph : Option (TermOf ok)) :
    ((kv.set t graph).toOption.getD kv).Inv (C.step (.set t graph)) := by
  rw [Contents.step, BadgerStore.set, graphKey_eq]
  split
  · rename_i hdec
    obtain ⟨ts, hts, -, hmem⟩ := h.holds.scanTriples_ok hnul hframed
      ⟨some t.subject, some t.predicate, none⟩ (graphName graph)
      fun t ht => hdec (graphName graph, t) ht rfl
    rw [hts]
    -- The old triples have the subject and the predicate of the new one.
    have hkeys : (ts.map keyed).foldl (fun kv old => kv.drop (nameKey (graphName graph))
          t.subject.termKey t.predicate.termKey old.2.2.1) kv =
        (ts.map keyed).foldl (fun kv tk => kv.drop (nameKey (graphName graph))
          tk.1 tk.2.1 tk.2.2.1) kv := by
      refine foldl_ext _ _ _ fun kv' tk htk => ?_
      obtain ⟨u, hu, rfl⟩ := mem_map.mp htk
      have hmatch := ((hmem u).mp hu).2
      simp only [TriplePatternOf.matches, Option.all_some, Option.all_none, Bool.and_true,
        Bool.and_eq_true, beq_iff_eq] at hmatch
      rw [keyed, hmatch.1, hmatch.2]
    have hput := (h.delete hnul _ (graphName graph) hmem).put hnul (graphName graph, t)
    rw [← hkeys] at hput
    exact hput
  · rename_i hdec
    obtain ⟨e, he⟩ := h.scanTriples_undecodable hnul hframed hdec
    rw [he]
    exact h

/-- Every operation keeps the invariant. -/
theorem Inv.apply (hframed : C.Framed) (op : StoreOp ok) :
    (kv.apply op).Inv (C.step op) := by
  cases op with
  | add t graph => exact h.add hnul t graph
  | addN quads => exact h.addN hnul quads
  | remove pat graph => exact h.remove hnul hframed pat graph
  | set t graph => exact h.set hnul hframed t graph

/-! ## Observations -/

/-- What `Triples` returns if everything it meets can be decoded. -/
theorem Inv.triples_ok (hframed : C.Framed) (pat : TriplePatternOf ok)
    (graph : Option (TermOf ok)) (hdec : C.Decodable pat (graphName graph)) :
    ∃ ts, kv.triples pat graph = .ok ts ∧ ts.Nodup ∧
      ∀ t, t ∈ ts ↔ (graphName graph, t) ∈ C.quads ∧ pat.matches t = true := by
  obtain ⟨ts, hts, hnodup, hmem⟩ := h.holds.scanTriples_ok hnul hframed pat (graphName graph)
    fun t ht => hdec (graphName graph, t) ht rfl
  refine ⟨ts, ?_, hnodup, hmem⟩
  have hmap : (ts.map keyed).map (fun tk => tk.2.2.2) = ts := by
    rw [map_map]
    exact map_id ts
  rw [triples, graphKey_eq, hts, Except.map, hmap]

/-- `Triples` fails at a triple that cannot be decoded. -/
theorem Inv.triples_error (hframed : C.Framed) (pat : TriplePatternOf ok)
    {graph : Option (TermOf ok)} (ht : (graphName graph, t) ∈ C.quads)
    (hmatch : pat.matches t = true) (hnest : t.wellNested = false) :
    ∃ e, kv.triples pat graph = .error e := by
  obtain ⟨e, he⟩ := h.holds.scanTriples_error hnul hframed pat ht hmatch hnest
  exact ⟨e, by rw [triples, graphKey_eq, he]; rfl⟩

/-- `Len` counts the triples of the graph. -/
theorem Inv.len_eq (graph : Option (TermOf ok)) :
    kv.len graph = (slice C.quads (graphName graph)).card := by
  have hscan : ∀ e, e ∈ scan kv (fun k => (makePrefixKey .spo (graphKey graph) []).isPrefixOf k) ↔
      ∃ t, (graphName graph, t) ∈ C.quads ∧
        e = (indexKey .spo (nameKey (graphName graph)) t, encodeTriple t) := by
    intro e
    have hmem := h.holds.mem_scan hnul ⟨none, none, none⟩ (graphName graph) e
    rw [← graphKey_eq] at hmem ⊢
    refine hmem.trans (exists_congr fun t => and_congr_right fun _ => ?_)
    exact and_iff_right rfl
  have hkeys : ((scan kv (fun k => (makePrefixKey .spo (graphKey graph) []).isPrefixOf k)).map
      Prod.fst).toFinset = (slice C.quads (graphName graph)).image
        (indexKey .spo (nameKey (graphName graph))) := by
    ext k
    rw [mem_toFinset, mem_map, Finset.mem_image]
    constructor
    · rintro ⟨e, he, rfl⟩
      obtain ⟨t, ht, rfl⟩ := (hscan e).mp he
      exact ⟨t, mem_slice.mpr ht, rfl⟩
    · rintro ⟨t, ht, rfl⟩
      exact ⟨_, (hscan _).mpr ⟨t, mem_slice.mp ht, rfl⟩, rfl⟩
  rw [len, ← length_map (f := Prod.fst),
    ← toFinset_card_of_nodup (nodup_scan _ _), hkeys]
  refine Finset.card_image_of_injective _ fun t u htu => ?_
  exact (indexKey_inj hnul (by decide) (by decide) htu).2.2

omit hnul in
/-- The registry is scanned under its letter. -/
theorem Inv.mem_registry (e : Key × List Char) :
    e ∈ scan kv (fun k => (ctxKey []).isPrefixOf k) ↔
      ∃ m ∈ C.names, e = (ctxKey m.termKey, []) := by
  obtain ⟨k, v⟩ := e
  rw [Lib.mem_scan, h.holds k v, isPrefixOf_iff_prefix]
  constructor
  · rintro ⟨⟨fam, hfam, q, -, rfl, -⟩ | ⟨m, hm, rfl, rfl⟩, hpre⟩
    · rw [indexKey, ctxKey] at hpre
      simp only [cons_append, cons_prefix_cons] at hpre
      have hctx : fam = .ctx := Family.letter_injective hpre.1.symm
      exact absurd hfam (by rw [hctx]; decide)
    · exact ⟨m, hm, rfl⟩
  · rintro ⟨m, hm, heq⟩
    obtain ⟨rfl, rfl⟩ := heq
    refine ⟨.inr ⟨m, hm, rfl, rfl⟩, ?_⟩
    exact ⟨m.termKey, rfl⟩

omit hnul h in
/-- What `Contexts` does at one entry of the registry. -/
theorem contextOf_ctxKey (filter : Option (TripleOf ok)) (m : TermOf ok) :
    kv.contextOf filter (ctxKey m.termKey) = do
      let name ← (termFromKey m.termKey).mapError .graphKey
      return if filter.all (fun t => (kv.lookup (indexKey .spo m.termKey t)).isSome) then some name
        else none := by
  have hdrop : (ctxKey m.termKey).drop 2 = m.termKey := rfl
  have hlookup : (fun t : TripleOf ok => (kv.lookup (spoKey m.termKey t.subject.termKey
      t.predicate.termKey t.object.termKey)).isSome) =
      fun t => (kv.lookup (indexKey .spo m.termKey t)).isSome :=
    funext fun t => by rw [spoKey_eq]
  rw [contextOf]
  rw [hdrop, if_neg (objectKey_ne_nil m), hlookup]

/-- The filter of `Contexts` asks whether the graph holds the triple. -/
theorem Inv.filter_iff (filter : Option (TripleOf ok)) (m : TermOf ok) :
    filter.all (fun t => (kv.lookup (indexKey .spo m.termKey t)).isSome) = true ↔
      ∀ t ∈ filter, (some m, t) ∈ C.quads := by
  have hlookup : ∀ t, (kv.lookup (indexKey .spo m.termKey t)).isSome = true ↔
      (some m, t) ∈ C.quads := by
    intro t
    rw [Option.isSome_iff_exists]
    constructor
    · rintro ⟨v, hv⟩
      exact ((h.holds.lookup_spo hnul (some m) t v).mp hv).1
    · intro ht
      exact ⟨_, (h.holds.lookup_spo hnul (some m) t _).mpr ⟨ht, rfl⟩⟩
  cases filter with
  | none => simp
  | some t => simp [hlookup]

/-- `Contexts` lists the registered names, if all of them can be decoded, that the
    filter lets through. -/
theorem Inv.contexts_ok (filter : Option (TripleOf ok))
    (hnest : ∀ m ∈ C.names, m.wellNested = true) :
    ∃ ms, kv.contexts filter = .ok ms ∧
      ∀ m, m ∈ ms ↔ m ∈ C.names ∧ ∀ t ∈ filter, (some m, t) ∈ C.quads := by
  have hread : ∀ m ∈ C.names, kv.contextOf filter (ctxKey m.termKey) =
      .ok (if filter.all (fun t => (kv.lookup (indexKey .spo m.termKey t)).isSome) then some m
        else none) := by
    intro m hm
    rw [contextOf_ctxKey, termFromKey_of_wellNested hnul (hnest m hm)]
    rfl
  obtain ⟨names, hnames, hall⟩ := mapM_ok (fun e : Key × List Char => kv.contextOf filter e.1)
    (scan kv fun k => (ctxKey []).isPrefixOf k) (by
      intro e he
      obtain ⟨m, hm, rfl⟩ := (h.mem_registry e).mp he
      exact ⟨_, hread m hm⟩)
  refine ⟨names.reduceOption, by rw [contexts, hnames]; rfl, fun m => ?_⟩
  rw [reduceOption_mem_iff, mem_results_iff hall]
  constructor
  · rintro ⟨e, he, hctx⟩
    obtain ⟨m', hm', rfl⟩ := (h.mem_registry e).mp he
    rw [hread m' hm', Except.ok.injEq, Option.ite_none_right_eq_some, Option.some.injEq] at hctx
    rw [← hctx.2]
    exact ⟨hm', (h.filter_iff hnul filter m').mp hctx.1⟩
  · rintro ⟨hm, hfilter⟩
    refine ⟨_, (h.mem_registry _).mpr ⟨m, hm, rfl⟩, ?_⟩
    rw [hread m hm, if_pos ((h.filter_iff hnul filter m).mpr hfilter)]

/-- It fails at a name that cannot be decoded. -/
theorem Inv.contexts_error (filter : Option (TripleOf ok)) {m : TermOf ok}
    (hm : m ∈ C.names) (hnest : m.wellNested = false) :
    ∃ e, kv.contexts filter = .error e := by
  obtain ⟨e, he⟩ := termFromKey_error_of_not_wellNested m (TermOf.nulFree_of_class hnul m) hnest
  obtain ⟨e', he'⟩ := mapM_error (fun e : Key × List Char => kv.contextOf filter e.1)
    (scan kv fun k => (ctxKey []).isPrefixOf k)
    ⟨_, (h.mem_registry _).mpr ⟨m, hm, rfl⟩, .graphKey e, by rw [contextOf_ctxKey, he]; rfl⟩
  exact ⟨e', by rw [contexts, he']; rfl⟩

end BadgerStore

/-! ## Runs -/

namespace Contents

variable {C : Contents ok}

theorem run_append (ops : List (StoreOp ok)) (op : StoreOp ok) :
    run (ops ++ [op]) = (run ops).step op := by
  rw [run, foldl_append]
  rfl

/-- Writing quads one after another. -/
theorem foldl_write (C : Contents ok) (qs : List (QuadOf ok)) :
    (qs.foldl write C).quads = C.quads ∪ qs.toFinset ∧
      ∀ m, m ∈ (qs.foldl write C).names ↔ m ∈ C.names ∨ ∃ q ∈ qs, q.1 = some m := by
  induction qs generalizing C with
  | nil => simp
  | cons q qs ih =>
    obtain ⟨hquads, hnames⟩ := ih (C.write q)
    rw [foldl_cons]
    refine ⟨?_, fun m => ?_⟩
    · rw [hquads, write, toFinset_cons, Finset.insert_union, Finset.union_insert]
    · rw [hnames, write, Finset.mem_union, Option.mem_toFinset, Option.mem_def, or_assoc,
        exists_mem_cons_iff]

theorem step_addN (C : Contents ok) (quads : List (TripleOf ok × Option (TermOf ok))) :
    C.step (.addN quads) = (addN quads).writes.foldl write C := by
  rw [step, writes, foldl_map]

/-- An operation registers the graphs it writes to, if it writes. -/
theorem step_eq (h : ∀ q ∈ C.quads, q.2.wellNested = true) (op : StoreOp ok) :
    (C.step op).quads = op.denote C.quads ∧
      ∀ m, m ∈ (C.step op).names ↔ m ∈ C.names ∨ ∃ q ∈ op.writes, q.1 = some m := by
  have hdec : ∀ pat n, C.Decodable pat n := fun pat n q hq _ _ => h q hq
  cases op with
  | add t graph => exact ⟨rfl, (foldl_write C [_]).2⟩
  | addN quads =>
    rw [step_addN]
    exact foldl_write C _
  | remove pat graph =>
    rw [step, if_pos (hdec _ _)]
    exact ⟨rfl, by simp [delete, writes]⟩
  | set t graph =>
    rw [step]
    rw [if_pos (hdec _ _)]
    exact ⟨rfl, (foldl_write _ [_]).2⟩

/-- An operation adds only what it writes. -/
theorem mem_step {op : StoreOp ok} {q : QuadOf ok} (h : q ∈ (C.step op).quads) :
    q ∈ C.quads ∨ q ∈ op.writes := by
  cases op with
  | add t graph => exact mem_denote (.add t graph) h
  | addN quads =>
    rw [step_addN, (foldl_write C _).1] at h
    exact mem_denote (.addN quads) h
  | remove pat graph =>
    rw [step] at h
    split at h
    · exact mem_denote (.remove pat graph) h
    · exact .inl h
  | set t graph =>
    rw [step] at h
    split at h
    · exact mem_denote (.set t graph) h
    · exact .inl h

theorem mem_run {q : QuadOf ok} (h : q ∈ (run ops).quads) :
    q ∈ ops.flatMap writes := by
  induction ops using List.reverseRecOn with
  | nil => cases h
  | append_singleton ops op ih =>
    rw [run_append] at h
    rw [flatMap_append, flatMap_singleton, mem_append]
    exact (mem_step h).imp_left ih

/-- A run that writes nothing that cannot be decoded is the one on sets, and registers
    every graph it writes to. -/
theorem run_eq (h : ∀ q ∈ ops.flatMap writes, q.2.wellNested = true) :
    (run ops).quads = dataset ops ∧
      ∀ m, m ∈ (run ops).names ↔ ∃ q ∈ ops.flatMap writes, q.1 = some m := by
  induction ops using List.reverseRecOn with
  | nil => simp [run, dataset, empty]
  | append_singleton ops op ih =>
    rw [flatMap_append, flatMap_singleton] at h ⊢
    obtain ⟨hquads, hnames⟩ := ih fun q hq => h q (mem_append_left _ hq)
    have hnest : ∀ q ∈ (run ops).quads, q.2.wellNested = true := fun q hq =>
      h q (mem_append_left _ (mem_run hq))
    obtain ⟨hdenote, hwrites⟩ := step_eq hnest op
    refine ⟨?_, fun m => ?_⟩
    · rw [run_append, hdenote, hquads, dataset_append]
    · rw [run_append, hwrites, hnames]
      simp only [mem_append, or_and_right, exists_or]

end Contents

/-- The store after a run holds its contents. -/
theorem BadgerStore.run_inv (hnul : ok '\x00' = false)
    (h : ∀ q ∈ ops.flatMap writes, q.2.Framed) :
    (run ops).Inv (Contents.run ops) := by
  induction ops using List.reverseRecOn with
  | nil => exact inv_empty
  | append_singleton ops op ih =>
    rw [flatMap_append] at h
    have hops : ∀ q ∈ ops.flatMap writes, q.2.Framed := fun q hq =>
      h q (mem_append_left _ hq)
    rw [Contents.run_append, run, foldl_append]
    exact (ih hops).apply hnul (fun q hq => hops q (Contents.mem_run hq)) op

end

/-! ## Scans are exact -/

/-- The characters of names: all but NUL. -/
def nameChar (c : Char) : Bool :=
  c != '\x00'

/-- Composite keys identify their graph and triple, a scan's prefix is met by exactly the
    keys of the triples that match, and `Triples` returns exactly those, or an error if one
    of them cannot be decoded. -/
theorem badger_scans_exactly :
    (∀ (g g' : Option (TermOf nameChar)) (t t' : TripleOf nameChar),
      (spoKey (graphKey g) t.subject.termKey t.predicate.termKey t.object.termKey =
          spoKey (graphKey g') t'.subject.termKey t'.predicate.termKey t'.object.termKey ↔
        graphName g = graphName g' ∧ t = t') ∧
      (posKey (graphKey g) t.predicate.termKey t.object.termKey t.subject.termKey =
          posKey (graphKey g') t'.predicate.termKey t'.object.termKey t'.subject.termKey ↔
        graphName g = graphName g' ∧ t = t') ∧
      (ospKey (graphKey g) t.object.termKey t.subject.termKey t.predicate.termKey =
          ospKey (graphKey g') t'.object.termKey t'.subject.termKey t'.predicate.termKey ↔
        graphName g = graphName g' ∧ t = t')) ∧
    (∀ (pat : TriplePatternOf nameChar) (g g' : Option (TermOf nameChar)) (t : TripleOf nameChar),
      scanPrefix pat (graphKey g) <+: indexKey (scanFamily pat) (graphKey g') t ↔
        graphName g' = graphName g ∧ (covered pat).matches t = true) ∧
    (∀ ops : List (StoreOp nameChar),
      (∀ q ∈ ops.flatMap writes, q.2.Framed ∧ q.2.wellNested = true) →
      ∀ (pat : TriplePatternOf nameChar) (g : Option (TermOf nameChar)),
        ∃ ts, (run ops).triples pat g = .ok ts ∧ ts.Nodup ∧
          ∀ t, t ∈ ts ↔ (graphName g, t) ∈ dataset ops ∧ pat.matches t = true) ∧
    ∀ ops : List (StoreOp nameChar), (∀ q ∈ ops.flatMap writes, q.2.Framed) →
      ∀ (pat : TriplePatternOf nameChar) (g : Option (TermOf nameChar)) (t : TripleOf nameChar),
        (graphName g, t) ∈ (Contents.run ops).quads → pat.matches t = true →
        t.wellNested = false → ∃ e, (run ops).triples pat g = .error e := by
  have hnul : nameChar '\x00' = false := rfl
  refine ⟨fun g g' t t' => ?_, fun pat g g' t => ?_, fun ops h pat g => ?_,
    fun ops h pat g t ht hmatch hnest => ?_⟩
  · -- One injectivity lemma serves the three orders of the key.
    have hkey : ∀ fam ∈ indexes, indexKey fam (graphKey g) t = indexKey fam (graphKey g') t' ↔
        graphName g = graphName g' ∧ t = t' := by
      intro fam hfam
      rw [graphKey_eq, graphKey_eq]
      refine ⟨fun heq => (indexKey_inj hnul hfam hfam heq).2, ?_⟩
      rintro ⟨hg, rfl⟩
      rw [hg]
    rw [spoKey_eq, spoKey_eq, posKey_eq, posKey_eq, ospKey_eq, ospKey_eq]
    exact ⟨hkey .spo (by decide), hkey .pos (by decide), hkey .osp (by decide)⟩
  · rw [graphKey_eq, graphKey_eq]
    exact scanPrefix_isPrefix_iff hnul pat _ _ t
  · have hinv := run_inv hnul fun q hq => (h q hq).1
    rw [← (Contents.run_eq fun q hq => (h q hq).2).1]
    refine hinv.triples_ok hnul (fun q hq => (h q (Contents.mem_run hq)).1) pat g ?_
    exact fun q hq _ _ => (h q (Contents.mem_run hq)).2
  · exact (run_inv hnul h).triples_error hnul (fun q hq => h q (Contents.mem_run hq)) pat ht
      hmatch hnest

/-- `<a>`. -/
def sampleName : URIRefOf nameChar := ⟨"a", by decide⟩

/-- `<a> <a> o`. -/
def sampleTriple (o : TermOf nameChar) : TripleOf nameChar :=
  ⟨.uri sampleName, sampleName, o⟩

/-- A literal with a NUL, in the default graph and in the graph `<a>`. -/
theorem badger_scans_nul :
    let t := sampleTriple (.literal ⟨"x\x00y", .lang ⟨"en", by decide⟩⟩)
    let g : Option (TermOf nameChar) := some sampleName.toTerm
    let ops : List (StoreOp nameChar) := [.add t none, .addN [(t, g)]]
    (∀ q ∈ ops.flatMap writes, q.2.Framed ∧ q.2.wellNested = true) ∧
      ∃ ts, (run ops).triples ⟨some t.subject, none, none⟩ g = .ok ts ∧ ts.Nodup ∧
        ∀ u, u ∈ ts ↔ (graphName g, u) ∈ dataset ops ∧
          TriplePatternOf.matches ⟨some t.subject, none, none⟩ u = true := by
  intro t g ops
  have ht : t.Framed ∧ t.wellNested = true := ⟨⟨by decide, by decide, by decide⟩, by decide⟩
  have hwrites : ∀ q ∈ ops.flatMap writes, q.2.Framed ∧ q.2.wellNested = true := by
    intro q hq
    simp only [ops, flatMap_cons, flatMap_nil, writes, map_cons,
      map_nil, append_nil, cons_append, nil_append, mem_cons,
      not_mem_nil, or_false] at hq
    rcases hq with rfl | rfl
    · exact ht
    · exact ht
  exact ⟨hwrites, badger_scans_exactly.2.2.1 ops hwrites _ g⟩

/-- `<<( <<( <a> <a> <a> )>> <a> <a> )>>` is stored as an object, and no longer read. -/
theorem badger_scan_fails :
    let inner : SubjectOf nameChar := .triple (.uri sampleName) sampleName sampleName.toTerm
    let t := sampleTriple (.subject (.triple inner sampleName sampleName.toTerm))
    let ops : List (StoreOp nameChar) := [.add t none]
    let everything : TriplePatternOf nameChar := ⟨none, none, none⟩
    (none, t) ∈ dataset ops ∧ ∃ e, (run ops).triples everything none = .error e := by
  intro inner t ops everything
  have hmem : (none, t) ∈ dataset ops := Finset.mem_insert_self _ _
  have hframed : ∀ q ∈ ops.flatMap writes, q.2.Framed := by
    intro q hq
    rw [mem_singleton.mp hq]
    exact ⟨by decide, by decide, by decide⟩
  exact ⟨hmem, (run_inv rfl hframed).triples_error rfl
    (fun q hq => hframed q (Contents.mem_run hq)) everything hmem rfl (by decide)⟩

end GoRdf
