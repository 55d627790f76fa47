import Mathlib.Data.Finset.Image
import GoRdf.Core.Store

/-!
# Datasets

What a store is for: it holds a finite set of quads, and its operations are those
on sets. The default graph has no name, whichever way it is addressed.

## Main definitions

* `QuadOf`: A triple of a graph.
* `slice`: The triples of one graph.
* `StoreOp.denote`, `dataset`: The operations on a set of quads.

## Theorems

* `mem_slice`: The members of a slice.
* `mem_dataset`: Nothing is in a dataset that was not written.
-/

namespace GoRdf

open List Finset

/-- A triple of a graph, which is the default graph if it has no name. -/
abbrev QuadOf (ok : Char → Bool) := Option (TermOf ok) × TripleOf ok

section

variable {ok : Char → Bool}

/-! ## Slices -/

/-- The triples of one graph. -/
def slice (D : Finset (QuadOf ok)) (n : Option (TermOf ok)) : Finset (TripleOf ok) :=
  (D.filter fun q => q.1 = n).image Prod.snd

@[simp] theorem mem_slice {D : Finset (QuadOf ok)} {n : Option (TermOf ok)} {t : TripleOf ok} :
    t ∈ slice D n ↔ (n, t) ∈ D := by
  rw [slice, mem_image]
  constructor
  · rintro ⟨⟨m, u⟩, hmem, rfl⟩
    rw [Finset.mem_filter] at hmem
    rw [← hmem.2]
    exact hmem.1
  · intro h
    exact ⟨(n, t), mem_filter.mpr ⟨h, rfl⟩, rfl⟩

/-! ## Operations -/

/-- The quads without those of a graph that match a pattern. -/
def without (D : Finset (QuadOf ok)) (pat : TriplePatternOf ok) (n : Option (TermOf ok)) :
    Finset (QuadOf ok) :=
  D.filter fun q => ¬ (q.1 = n ∧ pat.matches q.2 = true)

/-- The quads an operation writes. -/
def StoreOp.writes : StoreOp ok → List (QuadOf ok)
  | .add t graph => [(graphName graph, t)]
  | .addN quads => quads.map fun q => (graphName q.2, q.1)
  | .remove _ _ => []
  | .set t graph => [(graphName graph, t)]

/-- The graphs an operation names. -/
def StoreOp.graphs : StoreOp ok → List (Option (TermOf ok))
  | .addN quads => quads.map fun q => graphName q.2
  | .add _ graph | .remove _ graph | .set _ graph => [graphName graph]

/-- What an operation does to a set of quads. -/
def StoreOp.denote (D : Finset (QuadOf ok)) : StoreOp ok → Finset (QuadOf ok)
  | .add t graph => insert (graphName graph, t) D
  | .addN quads => D ∪ (quads.map fun q => (graphName q.2, q.1)).toFinset
  | .remove pat graph => without D pat (graphName graph)
  | .set t graph =>
    insert (graphName graph, t)
      (without D ⟨some t.subject, some t.predicate, none⟩ (graphName graph))

/-- The quads after a sequence of operations, starting with none. -/
def dataset (ops : List (StoreOp ok)) : Finset (QuadOf ok) :=
  ops.foldl StoreOp.denote ∅

theorem dataset_append (ops : List (StoreOp ok)) (op : StoreOp ok) :
    dataset (ops ++ [op]) = op.denote (dataset ops) := by
  rw [dataset, foldl_append]
  rfl

/-- An operation adds only what it writes. -/
theorem StoreOp.mem_denote {D : Finset (QuadOf ok)} (op : StoreOp ok) {q : QuadOf ok}
    (h : q ∈ op.denote D) : q ∈ D ∨ q ∈ op.writes := by
  cases op with
  | add t graph =>
    rw [StoreOp.denote, mem_insert] at h
    exact h.symm.imp_right List.mem_singleton.mpr
  | addN quads =>
    rw [StoreOp.denote, mem_union, mem_toFinset] at h
    exact h
  | remove pat graph => exact .inl (mem_of_mem_filter q h)
  | set t graph =>
    rw [StoreOp.denote, mem_insert] at h
    exact h.symm.imp (mem_of_mem_filter q) List.mem_singleton.mpr

/-- And all of it. -/
theorem StoreOp.mem_denote_of_writes {D : Finset (QuadOf ok)} {op : StoreOp ok} {q : QuadOf ok}
    (h : q ∈ op.writes) : q ∈ op.denote D := by
  cases op with
  | add t graph => exact mem_insert.mpr (.inl (List.mem_singleton.mp h))
  | addN quads => exact mem_union_right _ (mem_toFinset.mpr h)
  | remove pat graph => cases h
  | set t graph => exact mem_insert.mpr (.inl (List.mem_singleton.mp h))

/-- Nothing is in a dataset that was not written. -/
theorem mem_dataset {ops : List (StoreOp ok)} {q : QuadOf ok} (h : q ∈ dataset ops) :
    q ∈ ops.flatMap StoreOp.writes := by
  induction ops using List.reverseRecOn with
  | nil => cases h
  | append_singleton ops op ih =>
    rw [dataset_append] at h
    rw [flatMap_append, flatMap_singleton, mem_append]
    exact (op.mem_denote h).imp_left ih

end

end GoRdf
