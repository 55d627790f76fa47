import Mathlib.Data.Finmap
import Mathlib.Data.Finset.Sort

/-!
# Ordered Key-Value Maps

A finite map whose entries are visited in the order of their keys, as an
iterator of an embedded database visits them.

## Main definitions

* `KeyValue`: A finite map.
* `scan`: The entries whose keys satisfy a test, in order.

## Theorems

* `lookup_insert_iff`, `lookup_erase_iff`: What a write changes.
* `mem_scan`: What a scan visits.
* `nodup_scan`: No key is visited twice.
-/

namespace GoRdf

open Finmap Finset

namespace Lib

/-- A finite map from keys to values. -/
abbrev KeyValue (κ V : Type) := Finmap fun _ : κ => V

section

variable {κ V : Type} [DecidableEq κ]

theorem lookup_insert_iff {m : KeyValue κ V} {k k' : κ} {v v' : V} :
    (m.insert k v).lookup k' = some v' ↔ (k' = k ∧ v' = v) ∨ (k' ≠ k ∧ m.lookup k' = some v') := by
  by_cases hk : k' = k
  · rw [hk]
    simp [eq_comm]
  · rw [lookup_insert_of_ne _ hk]
    simp [hk]

theorem lookup_erase_iff {m : KeyValue κ V} {k k' : κ} {v' : V} :
    (m.erase k).lookup k' = some v' ↔ k' ≠ k ∧ m.lookup k' = some v' := by
  by_cases hk : k' = k
  · rw [hk]
    simp
  · rw [lookup_erase_ne hk]
    simp [hk]

end

variable {κ V : Type} [LinearOrder κ] [DecidableEq κ]

/-- The entries whose keys satisfy `p`, in the order of the keys. -/
def scan (m : KeyValue κ V) (p : κ → Bool) : List (κ × V) :=
  ((m.keys.filter fun k => p k = true).sort (· ≤ ·)).filterMap fun k =>
    (m.lookup k).map fun v => (k, v)

theorem mem_scan {m : KeyValue κ V} {p : κ → Bool} {k : κ} {v : V} :
    (k, v) ∈ scan m p ↔ m.lookup k = some v ∧ p k = true := by
  rw [scan, List.mem_filterMap]
  constructor
  · rintro ⟨k', hk', hv⟩
    obtain ⟨v', hlook, heq⟩ := Option.map_eq_some_iff.mp hv
    rw [Prod.mk.injEq] at heq
    rw [mem_sort, mem_filter] at hk'
    rw [← heq.1, ← heq.2]
    exact ⟨hlook, hk'.2⟩
  · rintro ⟨hlook, hp⟩
    refine ⟨k, ?_, by rw [hlook]; rfl⟩
    rw [mem_sort, mem_filter, mem_keys, ← lookup_isSome, hlook]
    exact ⟨rfl, hp⟩

/-- A scan visits every key once. -/
theorem nodup_scan (m : KeyValue κ V) (p : κ → Bool) : ((scan m p).map Prod.fst).Nodup := by
  have hkeys : (scan m p).map Prod.fst = (m.keys.filter fun k => p k = true).sort (· ≤ ·) := by
    rw [scan, List.map_filterMap]
    refine Eq.trans (List.filterMap_congr fun k hk => ?_) (List.filterMap_some)
    rw [mem_sort, mem_filter] at hk
    obtain ⟨v, hv⟩ := mem_iff.mp hk.1
    rw [hv]
    rfl
  rw [hkeys]
  exact sort_nodup _ _

end Lib

end GoRdf
