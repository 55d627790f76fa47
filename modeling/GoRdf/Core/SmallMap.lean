import GoRdf.Core.Term
import GoRdf.Lib.KeyedList

/-!
# The Small Map

`smallMap` of package `store`: a string-keyed map that keeps up to
`smallMapMax` entries in a slice and becomes a Go map beyond that.

A value carries its own well-formedness: the slice has no key twice and never
outgrows the limit, so a small map that breaks either cannot be built. A Go
map is an association list without duplicate keys. Its iteration order is
unspecified in Go, and nothing below depends on the order of the list.

Everything above this module sees a small map through `get`, `len` and
`entries`, by the lemmas at the end.

## Main definitions

* `SmallMap`: The map in one of its two representations.
* `SmallMap.get`, `SmallMap.set`, `SmallMap.delete`: The operations.
* `SmallMap.entries`: What iterating over it yields.

## Theorems

* `SmallMap.get_set`, `SmallMap.get_delete`: The map laws.
* `SmallMap.mem_entries`: Iteration yields exactly what lookup finds.
* `SmallMap.keysNodup_entries`: And no key twice.
-/

namespace GoRdf

open Lib List

variable {k : Key}

/-- Keys of the store's maps: the texts `TermKey` returns. -/
abbrev Key := List Char

/-- A Go map: entries in some order, no key twice. -/
abbrev GoMap (V : Type) := AList fun _ : Key => V

/-- `smallMapMax`: the number of entries kept in a slice. -/
def smallMapMax : Nat := 8

/-- `smallMap`: a slice of at most `smallMapMax` entries, or a Go map. -/
inductive SmallMap (V : Type)
  | slice (s : List (Key × V)) (keys : KeysNodup s) (small : s.length ≤ smallMapMax)
  | map (m : GoMap V)

namespace SmallMap

variable {V : Type} {x : SmallMap V} {v : V}

/-- The zero `smallMap`. -/
def empty : SmallMap V :=
  .slice [] List.nodup_nil (Nat.zero_le _)

/-- `len`. -/
def len : SmallMap V → Nat
  | .slice s _ _ => s.length
  | .map m => m.entries.length

/-- `get`. -/
def get (k : Key) : SmallMap V → Option V
  | .slice s _ _ => find k s
  | .map m => m.lookup k

/-- The loop of `set` that moves the slice into a Go map. -/
def promote (s : List (Key × V)) : GoMap V :=
  s.foldl (fun m e => m.insert e.1 e.2) ∅

/-- `set`: overwrite in place, append while there is room, promote otherwise. -/
def set (k : Key) (v : V) : SmallMap V → SmallMap V
  | .map m => .map (m.insert k v)
  | .slice s keys small =>
    if hk : k ∈ s.map Prod.fst then
      .slice (replaceFirst k v s) (keys.replaceFirst k v)
        (Nat.le_trans (Nat.le_of_eq (length_replaceFirst k v s)) small)
    else if hroom : s.length < smallMapMax then
      .slice (s ++ [(k, v)]) (keys.append_new hk v)
        (Nat.le_trans (Nat.le_of_eq length_append) hroom)
    else
      .map ((promote s).insert k v)

/-- `delete`: the last entry of a slice takes the place of the removed one. A Go
    map never goes back to a slice. -/
def delete (k : Key) : SmallMap V → SmallMap V
  | .map m => .map (m.erase k)
  | .slice s keys small =>
    .slice (swapRemove k s) (keys.swapRemove k) (Nat.le_trans (length_swapRemove_le k s) small)

/-- `all`: the entries in iteration order. -/
def entries : SmallMap V → List (Key × V)
  | .slice s _ _ => s
  | .map m => m.entries.map fun e => (e.1, e.2)

/-- `values`. -/
def values (x : SmallMap V) : List V :=
  x.entries.map Prod.snd

/-! ## The small map as a map -/

theorem lookup_insert_goMap (m : GoMap V) (k : Key) (v : V) (k' : Key) :
    (m.insert k v).lookup k' = if k' = k then some v else m.lookup k' := by
  by_cases hk : k' = k
  · rw [if_pos hk, hk, AList.lookup_insert]
  · rw [if_neg hk, AList.lookup_insert_ne hk]

theorem lookup_erase_goMap (m : GoMap V) (k k' : Key) :
    (m.erase k).lookup k' = if k' = k then none else m.lookup k' := by
  by_cases hk : k' = k
  · rw [if_pos hk, hk, AList.lookup_erase]
  · rw [if_neg hk, AList.lookup_erase_ne hk]

theorem mem_goMap_entries (m : GoMap V) (k : Key) (v : V) :
    (k, v) ∈ m.entries.map (fun e => (e.1, e.2)) ↔ m.lookup k = some v := by
  have hmem : v ∈ m.lookup k ↔ (⟨k, v⟩ : Sigma fun _ : Key => V) ∈ m.entries :=
    AList.mem_lookup_iff
  rw [Option.mem_def] at hmem
  rw [hmem, mem_map]
  constructor
  · rintro ⟨e, he, heq⟩
    rw [Prod.mk.injEq] at heq
    obtain ⟨k', v'⟩ := e
    rw [← heq.1, ← heq.2]
    exact he
  · intro h
    exact ⟨⟨k, v⟩, h, rfl⟩

theorem keysNodup_entries (x : SmallMap V) : KeysNodup x.entries := by
  cases x with
  | slice s keys small => exact keys
  | map m =>
    have hkeys : (m.entries.map fun e => (e.1, e.2)).map Prod.fst = m.keys := by
      rw [map_map]
      rfl
    rw [KeysNodup, entries, hkeys]
    exact m.keys_nodup

/-- Iteration yields exactly what lookup finds. -/
theorem mem_entries : (k, v) ∈ x.entries ↔ x.get k = some v := by
  cases x with
  | slice s keys small => exact (find_eq_some_iff keys).symm
  | map m => exact mem_goMap_entries m k v

theorem length_entries (x : SmallMap V) : x.entries.length = x.len := by
  cases x with
  | slice s keys small => rfl
  | map m => exact length_map _

@[simp] theorem get_empty (k : Key) : (empty : SmallMap V).get k = none := rfl

/-- Promotion loses nothing. The invariant of the loop is that the map so far
    answers as its entries do, the later ones taking precedence; without
    duplicate keys that is the slice's own answer. -/
theorem lookup_promote {s : List (Key × V)} (h : KeysNodup s) (k : Key) :
    (promote s).lookup k = find k s := by
  have hloop : ∀ (s : List (Key × V)) (m : GoMap V), KeysNodup s →
      (s.foldl (fun m e => m.insert e.1 e.2) m).lookup k = (find k s).or (m.lookup k) := by
    intro s
    induction s with
    | nil =>
      intro m _
      rfl
    | cons e s ih =>
      intro m hs
      have htail : KeysNodup s := KeysNodup.sublist (sublist_cons_self e s) hs
      rw [foldl_cons, ih _ htail]
      by_cases hk : e.1 = k
      · -- The key does not come back in the tail.
        have hnone : find k s = none := by
          rw [find_eq_none_iff, ← hk]
          exact (nodup_cons.mp hs).1
        have hhead : find k (e :: s) = some e.2 := by simp [find, hk]
        rw [hnone, hhead, ← hk, AList.lookup_insert]
        rfl
      · have hhead : find k (e :: s) = find k s := by simp [find, hk]
        rw [hhead, AList.lookup_insert_ne (Ne.symm hk)]
  rw [promote, hloop s ∅ h, AList.lookup_empty, Option.or_none]

theorem get_set (x : SmallMap V) (k : Key) (v : V) (k' : Key) :
    (x.set k v).get k' = if k' = k then some v else x.get k' := by
  cases x with
  | map m => exact lookup_insert_goMap m k v k'
  | slice s keys small =>
    rw [set]
    by_cases hk : k ∈ s.map Prod.fst
    · rw [dif_pos hk]
      exact find_replaceFirst hk v k'
    · rw [dif_neg hk]
      by_cases hroom : s.length < smallMapMax
      · rw [dif_pos hroom]
        exact find_append_new hk v k'
      · rw [dif_neg hroom]
        show ((promote s).insert k v).lookup k' = if k' = k then some v else find k' s
        rw [lookup_insert_goMap, lookup_promote keys]

theorem get_delete (x : SmallMap V) (k k' : Key) :
    (x.delete k).get k' = if k' = k then none else x.get k' := by
  cases x with
  | slice s keys small => exact find_swapRemove keys k k'
  | map m => exact lookup_erase_goMap m k k'

/-- Two small maps with the same lookups yield the same entries, in some order. -/
theorem entries_perm_of_get_eq {x y : SmallMap V} (h : ∀ k, x.get k = y.get k) :
    x.entries.Perm y.entries := by
  refine (perm_ext_iff_of_nodup x.keysNodup_entries.nodup y.keysNodup_entries.nodup).mpr ?_
  rintro ⟨k, v⟩
  rw [mem_entries, mem_entries, h k]

/-- A key that is present is one entry of its own. -/
theorem entries_perm_cons_delete (h : x.get k = some v) :
    x.entries.Perm ((k, v) :: (x.delete k).entries) := by
  have hnot : (k, v) ∉ (x.delete k).entries := by
    rw [mem_entries, get_delete, if_pos rfl]
    exact (Option.some_ne_none v).symm
  refine (perm_ext_iff_of_nodup x.keysNodup_entries.nodup
    (nodup_cons.mpr ⟨hnot, (x.delete k).keysNodup_entries.nodup⟩)).mpr ?_
  rintro ⟨k', v'⟩
  rw [mem_cons, mem_entries, mem_entries, get_delete, Prod.mk.injEq]
  by_cases hk : k' = k
  · rw [if_pos hk, hk, h, Option.some.injEq]
    constructor
    · intro hv
      exact .inl ⟨rfl, hv.symm⟩
    · rintro (⟨-, hv⟩ | hv)
      · exact hv.symm
      · cases hv
  · rw [if_neg hk]
    exact ⟨.inr, fun hor => hor.resolve_left fun hkv => hk hkv.1⟩

theorem len_delete (h : x.get k = some v) : x.len = (x.delete k).len + 1 := by
  rw [← length_entries, ← length_entries, (entries_perm_cons_delete h).length_eq, length_cons]

theorem len_eq_of_get_eq {x y : SmallMap V} (h : ∀ k, x.get k = y.get k) : x.len = y.len := by
  rw [← length_entries, ← length_entries, (entries_perm_of_get_eq h).length_eq]

/-- Writing a new key adds one entry. -/
theorem len_set_new (h : x.get k = none) (v : V) : (x.set k v).len = x.len + 1 := by
  have hget : (x.set k v).get k = some v := by rw [get_set, if_pos rfl]
  have hback : ∀ k', ((x.set k v).delete k).get k' = x.get k' := by
    intro k'
    rw [get_delete, get_set]
    by_cases hk : k' = k
    · rw [if_pos hk, hk, h]
    · rw [if_neg hk, if_neg hk]
  rw [len_delete hget, len_eq_of_get_eq hback]

/-- Overwriting a key keeps the number of entries. -/
theorem len_set_present {w : V} (h : x.get k = some w) (v : V) : (x.set k v).len = x.len := by
  have hget : (x.set k v).get k = some v := by rw [get_set, if_pos rfl]
  have hsame : ∀ k', ((x.set k v).delete k).get k' = (x.delete k).get k' := by
    intro k'
    rw [get_delete, get_delete, get_set]
    by_cases hk : k' = k
    · rw [if_pos hk, if_pos hk]
    · rw [if_neg hk, if_neg hk, if_neg hk]
  rw [len_delete hget, len_delete h, len_eq_of_get_eq hsame]

/-- A small map with one entry answers for that entry only. -/
theorem exists_of_len_one (h : x.len = 1) :
    ∃ k v, x.entries = [(k, v)] ∧ ∀ k', x.get k' = if k' = k then some v else none := by
  rw [← length_entries, length_eq_one_iff] at h
  obtain ⟨⟨k, v⟩, hx⟩ := h
  refine ⟨k, v, hx, ?_⟩
  intro k'
  ext w
  rw [← mem_entries, hx, mem_singleton, Prod.mk.injEq]
  by_cases hk : k' = k
  · rw [if_pos hk, Option.some.injEq]
    exact ⟨fun hkw => hkw.2.symm, fun hvw => ⟨hk, hvw.symm⟩⟩
  · rw [if_neg hk]
    exact ⟨fun hkw => absurd hkw.1 hk, nofun⟩

theorem len_pos_of_get (h : x.get k = some v) : 0 < x.len := by
  rw [len_delete h]
  exact Nat.succ_pos _

end SmallMap

end GoRdf
