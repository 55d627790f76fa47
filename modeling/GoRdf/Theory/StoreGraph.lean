import GoRdf.Core.MemoryStore
import GoRdf.Theory.TripleIndex

/-!
# A Memory Store as a Graph

A triple index keeps the contract that readers of a graph rely on, the optional
interfaces included.

## Main definitions

* `TripleIndex.graph`: The graph of an index that represents a set.

## Theorems

* `forEach_pageStep`: Skipping and counting inside the loop cuts out a page.
-/

namespace GoRdf

open Lib List
open scoped List

variable {ok : Char → Bool}

/-- Skipping and counting inside the loop cuts out a page. The loop has still to skip
    what the offset asks for beyond `skipped`, and may pass on what the limit leaves
    beyond `yielded`. -/
theorem forEach_pageStep (limit offset : Int) (l : List (TripleOf ok)) (st : PageState ok)
    (hst : 0 < limit → (st.yielded : Int) ≤ limit) :
    (forEach (pageStep limit offset) l st).2.passed =
      st.passed ++
        if 0 < limit then
          (l.drop (offset - st.skipped).toNat).take (limit - st.yielded).toNat
        else l.drop (offset - st.skipped).toNat := by
  induction l generalizing st with
  | nil => simp
  | cons t l ih =>
    rw [forEach_cons, pageStep]
    by_cases hskip : (st.skipped : Int) < offset
    · -- The triple is skipped.
      have hdrop : (offset - st.skipped).toNat = (offset - (st.skipped + 1 : Nat)).toNat + 1 := by
        omega
      rw [if_pos hskip]
      refine (ih { st with skipped := st.skipped + 1 } hst).trans ?_
      rw [hdrop, drop_succ_cons]
    · have hdrop : (offset - st.skipped).toNat = 0 := by omega
      rw [if_neg hskip, hdrop, drop_zero]
      by_cases hfull : 0 < limit ∧ limit ≤ st.yielded
      · -- The page is full.
        have htake : (limit - st.yielded).toNat = 0 := by omega
        rw [if_pos hfull, if_neg Bool.false_ne_true, if_pos hfull.1, htake, take_zero, append_nil]
      · have hroom : 0 < limit → ((st.yielded + 1 : Nat) : Int) ≤ limit := by omega
        rw [if_neg hfull]
        refine (ih ⟨st.skipped, st.yielded + 1, st.passed ++ [t]⟩ hroom).trans ?_
        rw [hdrop, drop_zero, append_assoc, singleton_append]
        split
        · rename_i hlimit
          have htake : (limit - st.yielded).toNat =
              (limit - (st.yielded + 1 : Nat)).toNat + 1 := by omega
          rw [htake, take_succ_cons]
        · rfl

namespace TripleIndex

variable {x : TripleIndex ok} {T : Set (TermOf ok)} {S : Finset (TripleOf ok)}
  {pat : TriplePatternOf ok}

theorem Yields.triples_eq {l : List (TripleOf ok)} (h : x.Yields S pat l) : x.triples pat = l := by
  rw [triples, h.lists, forEach_collect, nil_append]

theorem triplesWithLimit_eq (h : x.Inv T S) (hpat : pat.Within T) (limit offset : Int) :
    x.triplesWithLimit pat limit offset =
      if 0 < limit then ((x.triples pat).drop offset.toNat).take limit.toNat
      else (x.triples pat).drop offset.toNat := by
  obtain ⟨l, hl⟩ := each_spec h hpat
  rw [triplesWithLimit, hl.lists, forEach_pageStep, hl.triples_eq, nil_append]
  · simp only [Int.natCast_zero, Int.sub_zero]
  · exact fun hlimit => hlimit.le

theorem hasMatch_eq (h : x.Inv T S) (hpat : pat.Within T) :
    x.hasMatch pat = !(x.triples pat).isEmpty := by
  obtain ⟨l, hl⟩ := each_spec h hpat
  rw [hasMatch, hl.lists, hl.triples_eq]
  cases l <;> rfl

section

variable {S : Finset Triple} (x : TripleIndex iriChar) (h : x.Inv Set.univ S)

/-- The graph of an index, with what a `MemoryStore` offers. -/
def graph : Graph where
  triples := x.triples
  nodup pat := by
    obtain ⟨l, hl⟩ := each_spec h pat.within_univ
    rw [hl.triples_eq]
    exact hl.nodup
  mem_iff pat t := by
    obtain ⟨l, hl⟩ := each_spec h pat.within_univ
    obtain ⟨l', hl'⟩ := each_spec h TriplePatternOf.any.within_univ
    have hany : TriplePatternOf.any.matches t = true := rfl
    rw [hl.triples_eq, hl'.triples_eq, hl.mem, hl'.mem]
    exact ⟨fun ht => ⟨⟨ht.1, hany⟩, ht.2⟩, fun ht => ⟨ht.1.1, ht.2⟩⟩
  cardinality := some x.cardinality
  queryable := some
    { triplesWithLimit := x.triplesWithLimit
      count := x.cardinality
      hasMatch := x.hasMatch
      limit_spec := fun pat limit offset =>
        ⟨x.triples pat, List.Perm.refl _, triplesWithLimit_eq h pat.within_univ limit offset⟩
      count_spec := fun pat => by
        obtain ⟨l, hl⟩ := each_spec h pat.within_univ
        rw [hl.triples_eq, hl.card]
      hasMatch_spec := fun pat => hasMatch_eq h pat.within_univ }
  reachability := none

/-- The triples of the graph are those of the set. -/
theorem mem_graph_all (t : Triple) : t ∈ (x.graph h).all ↔ t ∈ S := by
  obtain ⟨l, hl⟩ := each_spec h TriplePatternOf.any.within_univ
  change t ∈ x.triples TriplePatternOf.any ↔ t ∈ S
  rw [hl.triples_eq, hl.mem]
  exact and_iff_left rfl

end

end TripleIndex

end GoRdf
