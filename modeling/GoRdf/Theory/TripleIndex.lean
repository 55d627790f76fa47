import Mathlib.Algebra.BigOperators.Group.List.Basic
import Mathlib.Data.Finset.Card
import GoRdf.Theory.Index

/-!
# The Triple Index Is a Set of Triples

Over every sequence of operations the three indexes of a `TripleIndex` hold
one and the same set of triples, the one obtained by inserting and deleting in
the abstract, and reading the index by any pattern answers as that set does.

`Theory.Index` says what one insertion or deletion does to one index. Here the
three are run side by side against a finite set, together with the two counts
the code keeps, and the eight shapes of a pattern are read off the index each
of them is answered from.

## Main definitions

* `Index.Represents`: An index holds exactly the triples of a set.
* `Index.Folded`: The fold rule, as a statement about sizes.
* `IndexOp.denote`, `denoteAll`: The operations on a set of triples.
* `TripleIndex.Inv`: The invariant of the three indexes and the counts.

## Theorems

* `TripleIndex.apply_inv`: Every operation keeps the invariant.
* `TripleIndex.run_inv`: So does every run.
* `TripleIndex.each_spec`: What a pattern yields, and how many.
* `TripleIndex.run_refines_set`: A run refines the run on sets.
-/

namespace GoRdf

open Lib List Option Finset

variable {ok : Char → Bool} {T : Set (TermOf ok)} {S : Finset (TripleOf ok)} {x : TripleIndex ok}
  {pat : TriplePatternOf ok}
  {p₁ p₂ p₃ : Pos} {t : TripleOf ok}

/-! ## An index that holds a set -/

/-- The index is well formed and holds exactly the triples of the set. -/
def Index.Represents {p₁ p₂ p₃ : Pos} (idx : Index ok p₁ p₂ p₃) (S : Finset (TripleOf ok)) : Prop :=
  idx.WF ∧ ∀ t, t ∈ idx.triples ↔ t ∈ S

/-- The three positions are all the positions. -/
def Covers (p₁ p₂ p₃ : Pos) : Prop :=
  ∀ q, q = p₁ ∨ q = p₂ ∨ q = p₃

/-- The triples have keys of their own. -/
structure Apart (T : Set (TermOf ok)) (S : Finset (TripleOf ok)) : Prop where
  keys : T.InjOn TermOf.termKey
  within : ∀ t ∈ S, t.Within T

theorem Covers.eq_of_keys (hc : Covers p₁ p₂ p₃) (hS : Apart T S) {t u : TripleOf ok}
    (ht : t.Within T) (hu : u ∈ S) (h₁ : keyAt t p₁ = keyAt u p₁)
    (h₂ : keyAt t p₂ = keyAt u p₂) (h₃ : keyAt t p₃ = keyAt u p₃) : t = u := by
  refine triple_eq_of_keyAt hS.keys ht (hS.within u hu) ?_
  intro q
  rcases hc q with rfl | rfl | rfl
  · exact h₁
  · exact h₂
  · exact h₃

namespace Index

variable {p₁ p₂ p₃ : Pos} {idx : Index ok p₁ p₂ p₃}

theorem represents_empty : (Index.empty : Index ok p₁ p₂ p₃).Represents ∅ :=
  ⟨nofun, fun _ => ⟨nofun, nofun⟩⟩

/-- `pair` finds the node under a second key, with the lookups of the top. -/
theorem pair_spec {e : Top ok} {k₁ : Key} (h : e.WF p₁ p₂ p₃ k₁) (k₂ : Key) :
    (∀ n ∈ e.pair p₂ k₂, n.WF p₁ p₂ p₃ k₁ k₂) ∧
      ∀ k₃, (e.pair p₂ k₂).bind (Node.lookup p₃ k₃) = e.lookup p₂ p₃ k₂ k₃ := by
  cases e with
  | one t =>
    rw [Top.pair]
    split
    · rename_i hk
      refine ⟨?_, ?_⟩
      · rintro n hn
        cases hn
        exact ⟨h, hk⟩
      · intro k₃
        exact if_congr ⟨fun h => ⟨hk, h⟩, fun h => h.2⟩ rfl rfl
    · rename_i hk
      refine ⟨nofun, ?_⟩
      intro k₃
      rw [bind_none, Top.lookup, if_neg (fun h => hk h.1)]
  | many l => exact ⟨fun n hn => h.1 k₂ n hn, fun _ => rfl⟩

section

variable (h : idx.Represents S)

include h

theorem Represents.lookup_eq_some {k₁ k₂ k₃ : Key} :
    idx.lookup k₁ k₂ k₃ = some t ↔ t ∈ S ∧ keyAt t p₁ = k₁ ∧ keyAt t p₂ = k₂ ∧ keyAt t p₃ = k₃ := by
  constructor
  · intro ht
    have hkeys := h.1.keys ht
    refine ⟨(h.2 t).mp ((h.1.mem_triples t).mpr ?_), hkeys⟩
    rw [hkeys.1, hkeys.2.1, hkeys.2.2]
    exact ht
  · rintro ⟨ht, rfl, rfl, rfl⟩
    exact (h.1.mem_triples t).mp ((h.2 t).mpr ht)

theorem Represents.lookup_eq_none (hc : Covers p₁ p₂ p₃) (hS : Apart T S) (hwithin : t.Within T)
    (ht : t ∉ S) : idx.lookup (keyAt t p₁) (keyAt t p₂) (keyAt t p₃) = none := by
  rw [eq_none_iff_forall_ne_some]
  intro u hu
  obtain ⟨hmem, h₁, h₂, h₃⟩ := h.lookup_eq_some.mp hu
  rw [← hc.eq_of_keys hS hwithin hmem h₁.symm h₂.symm h₃.symm] at hmem
  exact ht hmem

theorem Represents.insert (hc : Covers p₁ p₂ p₃) (hS : Apart T S) (hwithin : t.Within T)
    (ht : t ∉ S) : (idx.insert (keyAt t p₁) t).Represents (Insert.insert t S) := by
  have hnone := h.lookup_eq_none hc hS hwithin ht
  obtain ⟨hwf, hlookup⟩ := insert_spec h.1 t hnone
  refine ⟨hwf, ?_⟩
  intro u
  rw [hwf.mem_triples, hlookup, mem_insert]
  split
  · rename_i hk
    rw [some.injEq, eq_comm]
    -- A triple of the set has not these keys: they were looked up before.
    refine ⟨.inl, fun hor => hor.resolve_right fun hu => ?_⟩
    exact ht (hc.eq_of_keys hS hwithin hu hk.1.symm hk.2.1.symm hk.2.2.symm ▸ hu)
  · rename_i hk
    rw [← h.1.mem_triples, h.2]
    refine ⟨.inr, fun hor => hor.resolve_left ?_⟩
    rintro rfl
    exact hk ⟨rfl, rfl, rfl⟩

theorem Represents.delete (hc : Covers p₁ p₂ p₃) (hS : Apart T S) (ht : t ∈ S) :
    (idx.delete (keyAt t p₁) (keyAt t p₂) (keyAt t p₃)).Represents (S.erase t) := by
  obtain ⟨hwf, hlookup⟩ := delete_spec h.1 (h.lookup_eq_some.mpr ⟨ht, rfl, rfl, rfl⟩)
  refine ⟨hwf, ?_⟩
  intro u
  rw [hwf.mem_triples, hlookup, mem_erase]
  split
  · rename_i hk
    refine ⟨nofun, fun hu => absurd ?_ hu.1⟩
    exact (hc.eq_of_keys hS (hS.within t ht) hu.2 hk.1.symm hk.2.1.symm hk.2.2.symm).symm
  · rename_i hk
    rw [← h.1.mem_triples, h.2]
    refine ⟨fun hu => ⟨?_, hu⟩, fun hu => hu.2⟩
    rintro rfl
    exact hk ⟨rfl, rfl, rfl⟩

/-- The triples under a first key. -/
theorem Represents.mem_under (k₁ : Key) :
    ((idx.m.lookup k₁).map Top.triples |>.getD []).Nodup ∧
      ∀ t, t ∈ ((idx.m.lookup k₁).map Top.triples |>.getD []) ↔ t ∈ S ∧ keyAt t p₁ = k₁ := by
  have hmem : ∀ t, t ∈ S ∧ keyAt t p₁ = k₁ ↔
      (idx.m.lookup k₁).bind (Top.lookup p₂ p₃ (keyAt t p₂) (keyAt t p₃)) = some t := by
    intro t
    have hl : idx.lookup k₁ (keyAt t p₂) (keyAt t p₃) = some t ↔ _ := h.lookup_eq_some
    exact Iff.trans ⟨fun ht => ⟨ht.1, ht.2, rfl, rfl⟩, fun ht => ⟨ht.1, ht.2.1⟩⟩ hl.symm
  simp only [hmem]
  cases hget : idx.m.lookup k₁ with
  | none => exact ⟨nodup_nil, fun t => ⟨nofun, nofun⟩⟩
  | some e =>
    have hwf := h.1 k₁ e hget
    exact ⟨hwf.nodup_triples, hwf.mem_triples⟩

/-- The triples under a first and a second key. -/
theorem Represents.mem_pair (k₁ k₂ : Key) :
    ((idx.pair k₁ k₂).map Node.triples |>.getD []).Nodup ∧
      ∀ t, t ∈ ((idx.pair k₁ k₂).map Node.triples |>.getD []) ↔
        t ∈ S ∧ keyAt t p₁ = k₁ ∧ keyAt t p₂ = k₂ := by
  have hwf : ∀ n ∈ idx.pair k₁ k₂, n.WF p₁ p₂ p₃ k₁ k₂ := by
    intro n hn
    obtain ⟨e, hget, hpair⟩ := bind_eq_some_iff.mp hn
    exact (pair_spec (h.1 k₁ e hget) k₂).1 n hpair
  have hlookup : ∀ k₃, (idx.pair k₁ k₂).bind (Node.lookup p₃ k₃) = idx.lookup k₁ k₂ k₃ := by
    intro k₃
    rw [pair, lookup]
    cases hget : idx.m.lookup k₁ with
    | none => rfl
    | some e => exact (pair_spec (h.1 k₁ e hget) k₂).2 k₃
  have hmem : ∀ t, t ∈ S ∧ keyAt t p₁ = k₁ ∧ keyAt t p₂ = k₂ ↔
      (idx.pair k₁ k₂).bind (Node.lookup p₃ (keyAt t p₃)) = some t := by
    intro t
    rw [hlookup, h.lookup_eq_some]
    exact ⟨fun ht => ⟨ht.1, ht.2.1, ht.2.2, rfl⟩, fun ht => ⟨ht.1, ht.2.1, ht.2.2.1⟩⟩
  simp only [hmem]
  cases hpair : idx.pair k₁ k₂ with
  | none => exact ⟨nodup_nil, fun t => by simp⟩
  | some n => exact ⟨(hwf n hpair).nodup_triples, (hwf n hpair).mem_triples⟩

end

end Index

/-! ## The fold rule -/

/-- A leaf holds at least two triples. -/
def Node.Folded : Node ok → Prop
  | .one _ => True
  | .many l => 2 ≤ l.len

/-- A level holds at least two triples, and its nodes are folded. -/
def Top.Folded : Top ok → Prop
  | .one _ => True
  | .many l => 2 ≤ (Top.many l).len ∧ ∀ n ∈ l.values, n.Folded

/-- Every level of the index is folded: a lone triple is stored as itself. -/
def Index.Folded {p₁ p₂ p₃ : Pos} (idx : Index ok p₁ p₂ p₃) : Prop :=
  ∀ k₁ e, idx.m.lookup k₁ = some e → e.Folded

theorem Node.WF.folded {k₁ k₂ : Key} {n : Node ok} (h : n.WF p₁ p₂ p₃ k₁ k₂) : n.Folded := by
  cases n with
  | one t => trivial
  | many l => exact h.1

theorem Node.Folded.len_pos {n : Node ok} (h : n.Folded) : 0 < n.len := by
  cases n with
  | one t => exact Nat.one_pos
  | many l => exact Nat.lt_of_lt_of_le Nat.two_pos h

theorem length_le_length_flatMap {α β : Type} (f : α → List β) (xs : List α)
    (h : ∀ x ∈ xs, 0 < (f x).length) : xs.length ≤ (xs.flatMap f).length := by
  rw [length_flatMap, ← length_map (f := fun x => (f x).length)]
  exact length_le_sum_of_one_le _ (forall_mem_map.mpr h)

/-- A well-formed top has two triples under every level: two entries, or one
    that is a leaf. -/
theorem Top.WF.folded {k₁ : Key} {e : Top ok} (h : e.WF p₁ p₂ p₃ k₁) : e.Folded := by
  cases e with
  | one t => trivial
  | many l =>
    obtain ⟨hfiled, hpos, hone⟩ := h
    have hnode : ∀ n ∈ l.values, n.Folded := by
      intro n hn
      obtain ⟨⟨k, n⟩, hmem, rfl⟩ := mem_map.mp hn
      exact (hfiled k n (SmallMap.mem_entries.mp hmem)).folded
    refine ⟨?_, hnode⟩
    rw [← length_top_triples, Top.triples]
    by_cases hlen : l.len = 1
    · obtain ⟨k, n, hentries, hall⟩ := SmallMap.exists_of_len_one hlen
      have hget : l.get k = some n := by rw [hall, if_pos rfl]
      have hvalues : l.values = [n] := by
        rw [SmallMap.values, hentries]
        rfl
      have hn : n.Folded := (hfiled k n hget).folded
      rw [hvalues, flatMap_cons, flatMap_nil, append_nil, length_node_triples]
      cases n with
      -- A single triple would have been folded into the level above.
      | one t => exact absurd (hone hlen k _ hget) id
      | many l₃ => exact hn
    · have hvalues : l.values.length = l.len := by
        rw [SmallMap.values, length_map, SmallMap.length_entries]
      have hle := length_le_length_flatMap Node.triples l.values
        (fun n hn => by rw [length_node_triples]; exact (hnode n hn).len_pos)
      omega

theorem Index.Represents.folded {idx : Index ok p₁ p₂ p₃} (h : idx.Represents S) : idx.Folded :=
  fun k₁ e hget => (h.1 k₁ e hget).folded

/-! ## Runs on sets -/

/-- The operation on a set of triples. -/
def IndexOp.denote (S : Finset (TripleOf ok)) : IndexOp ok → Finset (TripleOf ok)
  | .add t => insert t S
  | .remove t => S.erase t
  | .removeMatching pat => S.filter fun t => pat.matches t = false

/-- All terms of the operation are in the set. -/
def IndexOp.Within (T : Set (TermOf ok)) : IndexOp ok → Prop
  | .add t => t.Within T
  | .remove t => t.Within T
  | .removeMatching pat => pat.Within T

theorem IndexOp.within_univ (op : IndexOp ok) : op.Within Set.univ := by
  cases op with
  | add t | remove t => exact t.within_univ
  | removeMatching pat => exact pat.within_univ

/-- The set after a sequence of operations on the empty set. -/
def denoteAll (ops : List (IndexOp ok)) : Finset (TripleOf ok) :=
  ops.foldl IndexOp.denote ∅

/-- The triples of a set with this predicate key. -/
def withPredicate (S : Finset (TripleOf ok)) (k : Key) : Finset (TripleOf ok) :=
  S.filter fun t => keyAt t .p = k

/-- The three indexes hold the set, and the counts count it. -/
structure TripleIndex.Inv (x : TripleIndex ok) (T : Set (TermOf ok)) (S : Finset (TripleOf ok)) :
    Prop where
  apart : Apart T S
  spo : x.spo.Represents S
  pos : x.pos.Represents S
  osp : x.osp.Represents S
  count : x.count = S.card
  predCount : ∀ k, x.predCount.lookup k =
    if (withPredicate S k).card = 0 then none else some (withPredicate S k).card

theorem covers_spo : Covers .s .p .o := by
  intro q
  cases q <;> decide

theorem covers_pos : Covers .p .o .s := by
  intro q
  cases q <;> decide

theorem covers_osp : Covers .o .s .p := by
  intro q
  cases q <;> decide

namespace TripleIndex

theorem Inv.predCount_getD (h : x.Inv T S) (k : Key) :
    (x.predCount.lookup k).getD 0 = (withPredicate S k).card := by
  rw [h.predCount]
  split
  · rename_i hzero
    rw [hzero]
    rfl
  · rfl

theorem Inv.has_iff (h : x.Inv T S) (hwithin : t.Within T) : x.has t = true ↔ t ∈ S := by
  rw [has]
  by_cases ht : t ∈ S
  · rw [h.spo.lookup_eq_some.mpr ⟨ht, rfl, rfl, rfl⟩]
    exact ⟨fun _ => ht, fun _ => rfl⟩
  · rw [h.spo.lookup_eq_none covers_spo h.apart hwithin ht]
    exact ⟨nofun, fun hm => absurd hm ht⟩

theorem inv_new (hT : T.InjOn TermOf.termKey) : newTripleIndex.Inv T ∅ where
  apart := ⟨hT, nofun⟩
  spo := Index.represents_empty
  pos := Index.represents_empty
  osp := Index.represents_empty
  count := rfl
  predCount := fun _ => rfl

theorem withPredicate_insert (ht : t ∉ S) (k : Key) :
    (withPredicate (insert t S) k).card =
      (withPredicate S k).card + if k = keyAt t .p then 1 else 0 := by
  rw [withPredicate, filter_insert]
  by_cases hk : keyAt t .p = k
  · have hnot : t ∉ S.filter fun u => keyAt u .p = k := fun hm => ht (mem_filter.mp hm).1
    rw [if_pos hk, if_pos hk.symm, card_insert_of_notMem hnot]
    rfl
  · rw [if_neg hk, if_neg (Ne.symm hk)]
    rfl

theorem withPredicate_erase (ht : t ∈ S) (k : Key) :
    (withPredicate (S.erase t) k).card =
      (withPredicate S k).card - if k = keyAt t .p then 1 else 0 := by
  rw [withPredicate, filter_erase]
  by_cases hk : keyAt t .p = k
  · have hmem : t ∈ S.filter fun u => keyAt u .p = k := mem_filter.mpr ⟨ht, hk⟩
    rw [if_pos hk.symm, card_erase_of_mem hmem]
    rfl
  · have hnot : t ∉ S.filter fun u => keyAt u .p = k := fun hm => hk (mem_filter.mp hm).2
    rw [if_neg (Ne.symm hk), erase_eq_of_notMem hnot]
    rfl

theorem add_inv (h : x.Inv T S) (hwithin : t.Within T) : (x.add t).Inv T (insert t S) := by
  by_cases ht : t ∈ S
  · rw [add, if_pos ((h.has_iff hwithin).mpr ht), insert_eq_of_mem ht]
    exact h
  · have hhas : ¬ x.has t = true := fun hh => ht ((h.has_iff hwithin).mp hh)
    rw [add, if_neg hhas]
    refine ⟨⟨h.apart.keys, forall_mem_insert _ _ _ |>.mpr ⟨hwithin, h.apart.within⟩⟩,
      h.spo.insert covers_spo h.apart hwithin ht, h.pos.insert covers_pos h.apart hwithin ht,
      h.osp.insert covers_osp h.apart hwithin ht, ?_, ?_⟩
    · rw [card_insert_of_notMem ht, h.count]
    · intro k
      rw [h.predCount_getD, withPredicate_insert ht]
      by_cases hk : k = keyAt t .p
      · rw [if_pos hk, hk, AList.lookup_insert, if_neg (Nat.succ_ne_zero _)]
      · rw [if_neg hk, AList.lookup_insert_ne hk, h.predCount, Nat.add_zero]

theorem lookup_dropPredicate (m : AList fun _ : Key => Nat) (pk k : Key) :
    (dropPredicate m pk).lookup k =
      if k = pk then
        (if (m.lookup pk).getD 0 - 1 = 0 then none else some ((m.lookup pk).getD 0 - 1))
      else m.lookup k := by
  rw [dropPredicate]
  by_cases hk : k = pk
  · rw [if_pos hk, hk]
    split
    · rw [AList.lookup_erase]
    · rw [AList.lookup_insert]
  · rw [if_neg hk]
    split
    · rw [AList.lookup_erase_ne hk, AList.lookup_insert_ne hk]
    · rw [AList.lookup_insert_ne hk]

theorem remove_inv (h : x.Inv T S) (hwithin : t.Within T) : (x.remove t).Inv T (S.erase t) := by
  by_cases ht : t ∈ S
  · rw [remove, if_pos ((h.has_iff hwithin).mpr ht)]
    refine ⟨⟨h.apart.keys, fun u hu => h.apart.within u (mem_of_mem_erase hu)⟩,
      h.spo.delete covers_spo h.apart ht, h.pos.delete covers_pos h.apart ht,
      h.osp.delete covers_osp h.apart ht, ?_, ?_⟩
    · rw [card_erase_of_mem ht, h.count]
    · intro k
      rw [lookup_dropPredicate, h.predCount_getD, withPredicate_erase ht]
      by_cases hk : k = keyAt t .p
      · rw [if_pos hk, if_pos hk, hk]
      · rw [if_neg hk, if_neg hk, h.predCount, Nat.sub_zero]
  · have hhas : ¬ x.has t = true := fun hh => ht ((h.has_iff hwithin).mp hh)
    rw [remove, if_neg hhas, erase_eq_of_notMem ht]
    exact h

theorem foldl_remove_inv (l : List (TripleOf ok)) (h : x.Inv T S) (hl : ∀ t ∈ l, t.Within T) :
    (l.foldl remove x).Inv T (S.filter fun t => t ∉ l) := by
  induction l generalizing x S with
  | nil =>
    have hS : S.filter (fun t => t ∉ ([] : List (TripleOf ok))) = S := by simp
    rw [hS]
    exact h
  | cons t l ih =>
    have hS : S.filter (fun u => u ∉ t :: l) = (S.erase t).filter fun u => u ∉ l := by
      ext u
      simp only [Finset.mem_filter, Finset.mem_erase, List.mem_cons, not_or]
      tauto
    rw [hS]
    rw [List.forall_mem_cons] at hl
    exact ih (remove_inv h hl.1) hl.2

end TripleIndex

/-! ## Reading by a pattern -/

attribute [simp] optSubjectKey optPredKey optTermKey

@[simp] theorem subject_termKey_ne_nil (s : SubjectOf ok) : s.termKey ≠ [] := by
  cases s <;> exact cons_ne_nil _ _

@[simp] theorem predicate_termKey_ne_nil (p : URIRefOf ok) : p.termKey ≠ [] :=
  cons_ne_nil _ _

@[simp] theorem term_termKey_ne_nil (t : TermOf ok) : t.termKey ≠ [] := by
  cases t with
  | subject s => exact subject_termKey_ne_nil s
  | literal l =>
    rw [TermOf.termKey, LiteralOf.literalKey]
    dsimp only
    split <;> exact cons_ne_nil _ _

theorem all_beq_iff_key {α : Type} [DecidableEq α] (key : α → Key) (o : Option α) (a : α)
    (hinj : ∀ x ∈ o, key a = key x → a = x) :
    o.all (· == a) = true ↔ ∀ x ∈ o, key a = key x := by
  cases o with
  | none => exact ⟨nofun, fun _ => rfl⟩
  | some x =>
    rw [all_some, beq_iff_eq]
    constructor
    · rintro rfl y hy
      rw [some.inj hy]
    · intro h
      exact (hinj x rfl (h x rfl)).symm

/-- Matching is agreeing on the keys the pattern gives. -/
theorem Apart.matches_iff (hS : Apart T S) (hpat : pat.Within T) (hmem : t ∈ S) :
    pat.matches t = true ↔ (∀ s ∈ pat.subject, keyAt t .s = s.termKey) ∧
      (∀ p ∈ pat.predicate, keyAt t .p = p.termKey) ∧
      ∀ o ∈ pat.object, keyAt t .o = o.termKey := by
  have ht := hS.within t hmem
  rw [TriplePatternOf.matches, Bool.and_eq_true, Bool.and_eq_true, and_assoc,
    all_beq_iff_key SubjectOf.termKey _ _ fun s hs heq => ?_,
    all_beq_iff_key URIRefOf.termKey _ _ fun p hp heq => ?_,
    all_beq_iff_key TermOf.termKey _ _ fun o ho heq =>
      hS.keys ht.2.2 (hpat.2.2 o ho) heq]
  · rfl
  · simpa [URIRefOf.toTerm] using hS.keys ht.2.1 (hpat.2.1 p hp) heq
  · simpa using hS.keys ht.1 (hpat.1 s hs) heq

namespace TripleIndex

/-- The list a reader of the index runs over. -/
structure Yields (x : TripleIndex ok) (S : Finset (TripleOf ok)) (pat : TriplePatternOf ok)
    (l : List (TripleOf ok)) : Prop where
  lists : ∀ {σ : Type} (yield : TripleOf ok → σ → Bool × σ) (s : σ),
    x.each pat yield s = forEach yield l s
  nodup : l.Nodup
  mem : ∀ t, t ∈ l ↔ t ∈ S ∧ pat.matches t = true
  card : x.cardinality pat = l.length

theorem length_eq_card {l : List (TripleOf ok)} (hl : l.Nodup)
    (hmem : ∀ t, t ∈ l ↔ t ∈ S) : l.length = S.card := by
  rw [← toFinset_card_of_nodup hl]
  congr 1
  ext t
  rw [List.mem_toFinset, hmem]

/-- The shape with every position bound: at most one triple. -/
theorem yields_exact (h : x.Inv T S) {s : SubjectOf ok} {p : URIRefOf ok} {o : TermOf ok}
    (hpat : TriplePatternOf.Within T ⟨some s, some p, some o⟩) :
    ∃ l, x.Yields S ⟨some s, some p, some o⟩ l := by
  have hmatch : ∀ t : TripleOf ok,
      t ∈ S ∧ TriplePatternOf.matches ⟨some s, some p, some o⟩ t = true ↔
        x.spo.lookup s.termKey p.termKey o.termKey = some t := by
    intro t
    rw [h.spo.lookup_eq_some]
    refine and_congr_right fun ht => (h.apart.matches_iff hpat ht).trans ?_
    simp only [mem_some_iff, forall_eq']
  cases hget : x.spo.lookup s.termKey p.termKey o.termKey with
  | none =>
    refine ⟨[], ⟨by simp [each, hget], nodup_nil, fun t => ?_, by simp [cardinality, hget]⟩⟩
    rw [hmatch, hget]
    exact ⟨nofun, nofun⟩
  | some u =>
    refine ⟨[u], ⟨by simp [each, hget], nodup_singleton u, fun t => ?_,
      by simp [cardinality, hget]⟩⟩
    rw [hmatch, hget, List.mem_singleton, some.injEq]
    exact eq_comm

/-- A shape answered from the node under two keys. -/
theorem yields_pair
    {idx : Index ok p₁ p₂ p₃} (h : idx.Represents S) {pat : TriplePatternOf ok} (k₁ k₂ : Key)
    (heach : ∀ {σ : Type} (yield : TripleOf ok → σ → Bool × σ) (s : σ),
      x.each pat yield s = eachNode (idx.pair k₁ k₂) yield s)
    (hcard : x.cardinality pat = nodeLen (idx.pair k₁ k₂))
    (hmatch : ∀ t ∈ S, pat.matches t = true ↔ keyAt t p₁ = k₁ ∧ keyAt t p₂ = k₂) :
    ∃ l, x.Yields S pat l := by
  obtain ⟨hnodup, hmem⟩ := h.mem_pair k₁ k₂
  refine ⟨_, ⟨?_, hnodup, ?_, ?_⟩⟩
  · intro σ yield s
    rw [heach, eachNode_lists]
  · intro t
    rw [hmem]
    exact and_congr_right fun ht => (hmatch t ht).symm
  · rw [hcard]
    cases idx.pair k₁ k₂ with
    | none => rfl
    | some n => exact (length_node_triples n).symm

/-- A shape answered from the top under one key. The count comes from the top,
    or from the predicate counts. -/
theorem yields_under
    {idx : Index ok p₁ p₂ p₃} (h : idx.Represents S) {pat : TriplePatternOf ok} (k₁ : Key)
    (heach : ∀ {σ : Type} (yield : TripleOf ok → σ → Bool × σ) (s : σ),
      x.each pat yield s = eachTop (idx.m.lookup k₁) yield s)
    (hcard : x.cardinality pat = topLen (idx.m.lookup k₁) ∨
      x.cardinality pat = (S.filter fun t => keyAt t p₁ = k₁).card)
    (hmatch : ∀ t ∈ S, pat.matches t = true ↔ keyAt t p₁ = k₁) :
    ∃ l, x.Yields S pat l := by
  obtain ⟨hnodup, hmem⟩ := h.mem_under k₁
  refine ⟨_, ⟨?_, hnodup, ?_, ?_⟩⟩
  · intro σ yield s
    rw [heach, eachTop_lists]
  · intro t
    rw [hmem]
    exact and_congr_right fun ht => (hmatch t ht).symm
  · rcases hcard with hcard | hcard
    · rw [hcard]
      cases idx.m.lookup k₁ with
      | none => rfl
      | some e => exact (length_top_triples e).symm
    · rw [hcard]
      refine (length_eq_card hnodup ?_).symm
      intro t
      rw [hmem, Finset.mem_filter]

/-- The shape with no position bound: every triple. -/
theorem yields_all (h : x.Inv T S) : ∃ l, x.Yields S ⟨none, none, none⟩ l := by
  have hnodup := h.spo.1.nodup_triples
  refine ⟨x.spo.triples, ⟨?_, hnodup, ?_, ?_⟩⟩
  · intro σ yield s
    exact forEach_lists (fun e _ yield s => eachTop_lists (some e.2) yield s) yield s
  · intro t
    rw [h.spo.2]
    exact ⟨fun ht => ⟨ht, rfl⟩, fun ht => ht.1⟩
  · have hcount : x.cardinality ⟨none, none, none⟩ = x.count := by
      rw [cardinality]
      simp
    rw [hcount, h.count, length_eq_card hnodup h.spo.2]

/-- For every shape of a pattern the index yields each match exactly once, and
    `cardinality` is how many there are. -/
theorem each_spec (h : x.Inv T S) (hpat : pat.Within T) : ∃ l, x.Yields S pat l := by
  have hmatch := fun t (ht : t ∈ S) => h.apart.matches_iff hpat ht
  obtain ⟨sub, pred, obj⟩ := pat
  match sub, pred, obj with
  | some s, some p, some o => exact yields_exact h hpat
  | some s, some p, none =>
    exact yields_pair h.spo s.termKey p.termKey (by simp [each]) (by simp [cardinality])
      (fun t ht => by simp [hmatch t ht])
  | none, some p, some o =>
    exact yields_pair h.pos p.termKey o.termKey (by simp [each]) (by simp [cardinality])
      (fun t ht => by simp [hmatch t ht])
  | some s, none, some o =>
    exact yields_pair h.osp o.termKey s.termKey (by simp [each]) (by simp [cardinality])
      (fun t ht => by simp [hmatch t ht, and_comm])
  | some s, none, none =>
    exact yields_under h.spo s.termKey (by simp [each]) (.inl (by simp [cardinality]))
      (fun t ht => by simp [hmatch t ht])
  | none, some p, none =>
    exact yields_under h.pos p.termKey (by simp [each])
      (.inr (by simp [cardinality, h.predCount_getD, withPredicate]))
      (fun t ht => by simp [hmatch t ht])
  | none, none, some o =>
    exact yields_under h.osp o.termKey (by simp [each]) (.inl (by simp [cardinality]))
      (fun t ht => by simp [hmatch t ht])
  | none, none, none => exact yields_all h

theorem removeMatching_inv (h : x.Inv T S) (hpat : pat.Within T) :
    (x.removeMatching pat).Inv T (S.filter fun t => pat.matches t = false) := by
  obtain ⟨l, hl⟩ := each_spec h hpat
  have hcollect : (x.each pat collect []).2 = l := by
    rw [hl.lists, forEach_collect, nil_append]
  have hS : S.filter (fun t => pat.matches t = false) = S.filter fun t => t ∉ l := by
    refine filter_congr ?_
    intro t ht
    rw [hl.mem, not_and, Bool.not_eq_true]
    exact ⟨fun hm _ => hm, fun hm => hm ht⟩
  rw [removeMatching, hcollect, hS]
  exact foldl_remove_inv l h fun t ht => h.apart.within t ((hl.mem t).mp ht).1

/-- Every operation keeps the invariant. -/
theorem apply_inv (h : x.Inv T S) {op : IndexOp ok} (hop : op.Within T) :
    (x.apply op).Inv T (op.denote S) := by
  cases op with
  | add t => exact add_inv h hop
  | remove t => exact remove_inv h hop
  | removeMatching pat => exact removeMatching_inv h hop

/-- Every run keeps the invariant, by induction along the operations. -/
theorem run_inv (hT : T.InjOn TermOf.termKey) {ops : List (IndexOp ok)}
    (hops : ∀ op ∈ ops, op.Within T) : (run ops).Inv T (denoteAll ops) :=
  foldl_rel (r := fun (x : TripleIndex ok) S => x.Inv T S) (inv_new hT) fun op hop _ _ h =>
    apply_inv h (hops op hop)

/-- A run of the index over terms that `TermKey` tells apart refines the run on sets: the
    three indexes hold the same triples, folded; the counts are cardinalities; and every
    pattern yields each of its matches once, with `cardinality` their number. -/
theorem run_refines_set {T : Set (TermOf ok)} (hT : T.InjOn TermOf.termKey)
    {ops : List (IndexOp ok)} (hops : ∀ op ∈ ops, op.Within T) :
    (∀ t, t ∈ (run ops).spo.triples ↔ t ∈ denoteAll ops) ∧
      (∀ t, t ∈ (run ops).pos.triples ↔ t ∈ denoteAll ops) ∧
      (∀ t, t ∈ (run ops).osp.triples ↔ t ∈ denoteAll ops) ∧
      ((run ops).spo.Folded ∧ (run ops).pos.Folded ∧ (run ops).osp.Folded) ∧
      (run ops).count = (denoteAll ops).card ∧
      (∀ p : URIRefOf ok, p.toTerm ∈ T → ((run ops).predCount.lookup p.termKey).getD 0 =
        ((denoteAll ops).filter fun t => t.predicate = p).card) ∧
      (∀ k, (run ops).predCount.lookup k ≠ some 0) ∧
      ∀ pat, pat.Within T → ∃ l : List (TripleOf ok),
        (∀ {σ : Type} (yield : TripleOf ok → σ → Bool × σ) (s : σ),
          (run ops).each pat yield s = forEach yield l s) ∧
        l.Nodup ∧ (∀ t, t ∈ l ↔ t ∈ denoteAll ops ∧ pat.matches t = true) ∧
        (run ops).cardinality pat = l.length := by
  have h := run_inv hT hops
  refine ⟨h.spo.2, h.pos.2, h.osp.2, ⟨h.spo.folded, h.pos.folded, h.osp.folded⟩, h.count,
    ?_, ?_, ?_⟩
  · intro p hp
    rw [h.predCount_getD]
    congr 1
    refine filter_congr ?_
    intro t ht
    -- The counters are kept by key, and keys tell these predicates apart.
    refine ⟨fun heq => ?_, fun heq => by rw [← heq]; rfl⟩
    simpa [URIRefOf.toTerm] using hT (h.apart.within t ht).2.1 hp heq
  · intro k
    rw [h.predCount]
    split
    · exact (some_ne_none 0).symm
    · rename_i hne
      exact fun heq => hne (some.inj heq)
  · intro pat hpat
    obtain ⟨l, hl⟩ := each_spec h hpat
    exact ⟨l, hl.lists, hl.nodup, hl.mem, hl.card⟩

end TripleIndex

/-- The top is a level with fewer than two entries. -/
def Top.hasLoneEntry : Top ok → Bool
  | .one _ => false
  | .many l => decide (l.len < 2)

/-- The stricter rule that counts entries instead of triples: no level of the
    index has fewer than two. -/
def Index.NoLoneEntry {p₁ p₂ p₃ : Pos} (idx : Index ok p₁ p₂ p₃) : Prop :=
  ∀ e ∈ idx.m.entries, e.2.hasLoneEntry = false

/-- An IRI that every class of the samples below accepts. -/
def sampleIri : URIRefOf ok := ⟨"", rfl⟩

theorem english_valid : subtags isLowerLetter 0 "en".toList = true := by decide

/-- Two triples with the same subject and predicate. -/
def samplePair : List (IndexOp iriChar) :=
  [.add ⟨.uri sampleIri, sampleIri, .literal ⟨"1", .lang ⟨"en", english_valid⟩⟩⟩,
    .add ⟨.uri sampleIri, sampleIri, .literal ⟨"2", .lang ⟨"en", english_valid⟩⟩⟩]

/-- Any terms with checked names are told apart. -/
theorem samplePair_refines_set : (TripleIndex.run samplePair).count = 2 :=
  (TripleIndex.run_refines_set Term.injOn_termKey
    fun op _ => op.within_univ).2.2.2.2.1

/-- `<> <> "x"^^<>` and `<> <> "x"`, which have one key. -/
def emptyTyped : List (TripleOf anyChar) :=
  [⟨.uri sampleIri, sampleIri, .literal ⟨"x", .typed sampleIri nofun⟩⟩,
    ⟨.uri sampleIri, sampleIri, .literal ⟨"x", .typed ⟨xsdString, all_anyChar xsdString⟩ nofun⟩⟩]

/-- A literal of the empty datatype, and the `xsd:string` of the same text. -/
def sharedKeyPair : List (IndexOp anyChar) :=
  emptyTyped.map .add

/-- Two triples that share subject and predicate are one leaf, which is the only
    entry of the subject's level. And two that share all their keys are one triple. -/
theorem lone_entry_of_shared_pair :
    (¬ ∀ ops : List (IndexOp iriChar), (TripleIndex.run ops).spo.NoLoneEntry) ∧
      (TripleIndex.run sharedKeyPair).count = 1 ∧ (denoteAll sharedKeyPair).card = 2 := by
  refine ⟨fun h => ?_, ?_, ?_⟩
  · have hpair : ¬ ∀ e ∈ (TripleIndex.run samplePair).spo.m.entries,
        e.2.hasLoneEntry = false := by
      decide
    exact hpair (h samplePair)
  · decide
  · decide

end GoRdf
