import GoRdf.Core.TripleIndex
import GoRdf.Theory.TermKey

/-!
# One Index, One Triple

What inserting and deleting a triple does to one of the three indexes, and
what iterating over it yields.

The argument goes level by level. A node, a top and an index are *well formed*
when every triple in them is filed under its own keys and singletons are
folded; each is specified by its lookups, and inserting or deleting changes
exactly one of them. What iteration yields is then read off the lookups.

The fold rule of the code is about triples, not about entries. A lone triple
is stored as itself, so a leaf has at least two entries; a level may have a
single entry, but then that entry is a leaf, since two triples that agree on
the first two keys are filed exactly so.

## Main definitions

* `Node.WF`, `Top.WF`, `Index.WF`: Triples are filed under their keys, folded.
* `Node.triples`, `Top.triples`, `Index.triples`: Iteration, as a list.

## Theorems

* `Index.insert_spec`, `Index.delete_spec`: The lookups after a change.
* `Index.WF.mem_triples`, `Index.WF.nodup_triples`: Iteration yields what
  lookup finds, once.
* `eachNode_lists`, `eachTop_lists`: The loops of the source run over these lists.
-/

namespace GoRdf

open Lib List Option SmallMap Level Node

variable {ok : Char → Bool} {idx : Index ok p₁ p₂ p₃} {t : TripleOf ok} {k₁ k₂ k₃ : Key}

/-! ## Keys and triples -/

/-- All three terms of the triple are in the set. -/
def TripleOf.Within (T : Set (TermOf ok)) (t : TripleOf ok) : Prop :=
  .subject t.subject ∈ T ∧ t.predicate.toTerm ∈ T ∧ t.object ∈ T

/-- All terms the pattern gives are in the set. -/
def TriplePatternOf.Within (T : Set (TermOf ok)) (pat : TriplePatternOf ok) : Prop :=
  (∀ s ∈ pat.subject, .subject s ∈ T) ∧ (∀ p ∈ pat.predicate, p.toTerm ∈ T) ∧
    ∀ o ∈ pat.object, o ∈ T

theorem TripleOf.within_univ (t : TripleOf ok) : t.Within Set.univ :=
  ⟨trivial, trivial, trivial⟩

theorem TriplePatternOf.within_univ (pat : TriplePatternOf ok) : pat.Within Set.univ :=
  ⟨fun _ _ => trivial, fun _ _ => trivial, fun _ _ => trivial⟩

/-- A triple is determined by its three keys, if those of its terms are their own. -/
theorem triple_eq_of_keyAt {T : Set (TermOf ok)} (hT : T.InjOn TermOf.termKey) {t u : TripleOf ok}
    (ht : t.Within T) (hu : u.Within T) (h : ∀ q, keyAt t q = keyAt u q) : t = u := by
  have hs := hT ht.1 hu.1 (h .s)
  have hp := hT ht.2.1 hu.2.1 (h .p)
  have ho := hT ht.2.2 hu.2.2 (h .o)
  cases t
  cases u
  simp only [URIRefOf.toTerm, TermOf.subject.injEq, SubjectOf.uri.injEq] at hs hp
  simp only [TripleOf.mk.injEq]
  exact ⟨hs, hp, ho⟩

/-! ## Well-formed nodes -/

/-- The triples of the node are filed under these two keys, and a leaf has at
    least two of them, each under its third key. -/
def Node.WF (p₁ p₂ p₃ : Pos) (k₁ k₂ : Key) : Node ok → Prop
  | .one t => keyAt t p₁ = k₁ ∧ keyAt t p₂ = k₂
  | .many l => 2 ≤ l.len ∧
      ∀ k₃ t, l.get k₃ = some t → keyAt t p₁ = k₁ ∧ keyAt t p₂ = k₂ ∧ keyAt t p₃ = k₃

/-- The node is a leaf. -/
def Node.IsMany : Node ok → Prop
  | .one _ => False
  | .many _ => True

/-- A change under one key and a condition, as the nested lookups have it and as one. -/
theorem ite_under {β : Type} (k k₀ : Key) (P : Prop) [Decidable P] (x : β) (f : Key → β) :
    (if k = k₀ then if P then x else f k₀ else f k) = if k = k₀ ∧ P then x else f k := by
  by_cases hk : k = k₀
  · simp [hk]
  · rw [if_neg hk, if_neg fun h => hk h.1]

section Level

variable {p₁ p₂ p₃ : Pos} {k₁ k₂ : Key}

theorem Node.lookup_one {u t : TripleOf ok} {k₃ : Key} :
    (one u).lookup p₃ k₃ = some t ↔ keyAt u p₃ = k₃ ∧ u = t := by
  simp [lookup]

theorem Top.lookup_one {u t : TripleOf ok} {k₂ k₃ : Key} :
    (Top.one u).lookup p₂ p₃ k₂ k₃ = some t ↔ (keyAt u p₂ = k₂ ∧ keyAt u p₃ = k₃) ∧ u = t := by
  simp [Top.lookup]

theorem Node.WF.keys {n : Node ok} (h : n.WF p₁ p₂ p₃ k₁ k₂) {k₃ : Key}
    (ht : n.lookup p₃ k₃ = some t) : keyAt t p₁ = k₁ ∧ keyAt t p₂ = k₂ ∧ keyAt t p₃ = k₃ := by
  cases n with
  | one u =>
    obtain ⟨hk, rfl⟩ := lookup_one.mp ht
    exact ⟨h.1, h.2, hk⟩
  | many l => exact h.2 k₃ t ht

/-- A triple joins a node that does not hold it. -/
theorem Node.add_spec (t : TripleOf ok) (o : Option (Node ok)) (h₁ : keyAt t p₁ = k₁)
    (h₂ : keyAt t p₂ = k₂) (hwf : ∀ n ∈ o, n.WF p₁ p₂ p₃ k₁ k₂)
    (hnew : o.bind (lookup p₃ (keyAt t p₃)) = none) :
    (add p₃ t o).WF p₁ p₂ p₃ k₁ k₂ ∧
      ∀ k₃, (add p₃ t o).lookup p₃ k₃ =
        if k₃ = keyAt t p₃ then some t else o.bind (lookup p₃ k₃) := by
  cases o with
  | none =>
    refine ⟨⟨h₁, h₂⟩, ?_⟩
    intro k₃
    exact if_congr eq_comm rfl rfl
  | some n =>
    have hn := hwf n rfl
    rw [bind_some] at hnew
    cases n with
    | one u =>
      -- A second triple turns the singleton into a leaf of two.
      have hne : keyAt t p₃ ≠ keyAt u p₃ := by
        intro heq
        rw [lookup, if_pos heq.symm] at hnew
        exact some_ne_none u hnew
      have hget : ∀ k₃, ((empty.set (keyAt u p₃) u).set (keyAt t p₃) t).get k₃ =
          if k₃ = keyAt t p₃ then some t else if k₃ = keyAt u p₃ then some u else none := by
        intro k₃
        rw [get_set, get_set, get_empty]
      have hlen : ((empty.set (keyAt u p₃) u).set (keyAt t p₃) t).len = 2 := by
        rw [len_set_new]
        · rfl
        · rw [get_set, if_neg hne, get_empty]
      refine ⟨⟨Nat.le_of_eq hlen.symm, ?_⟩, ?_⟩
      · intro k₃ v hv
        rw [hget] at hv
        split_ifs at hv with hkt hku
        · cases hv
          exact ⟨h₁, h₂, hkt.symm⟩
        · cases hv
          exact ⟨hn.1, hn.2, hku.symm⟩
      · intro k₃
        rw [add, lookup, hget, bind_some, lookup]
        simp only [eq_comm]
    | many l =>
      have hlen : (l.set (keyAt t p₃) t).len = l.len + 1 := len_set_new hnew t
      refine ⟨⟨by rw [hlen]; exact Nat.le_succ_of_le hn.1, ?_⟩, ?_⟩
      · intro k₃ v hv
        rw [get_set] at hv
        split_ifs at hv with hkt
        · cases hv
          exact ⟨h₁, h₂, hkt.symm⟩
        · exact hn.2 k₃ v hv
      · intro k₃
        rw [add, lookup, get_set, bind_some, lookup]

/-! ## Well-formed levels -/

/-- Every node of the level is filed under its key. -/
def Level.Filed (p₁ p₂ p₃ : Pos) (k₁ : Key) (l : Level ok) : Prop :=
  ∀ k₂ n, l.get k₂ = some n → n.WF p₁ p₂ p₃ k₁ k₂

/-- A level has an entry, and its only entry is a leaf if it has no other. -/
def Level.Fold (l : Level ok) : Prop :=
  0 < l.len ∧ (l.len = 1 → ∀ k₂ n, l.get k₂ = some n → n.IsMany)

/-- The triples of the top are filed under this key, and the top is folded. -/
def Top.WF (p₁ p₂ p₃ : Pos) (k₁ : Key) : Top ok → Prop
  | .one t => keyAt t p₁ = k₁
  | .many l => Level.Filed p₁ p₂ p₃ k₁ l ∧ Level.Fold l

/-- The lookup of a level. -/
def Level.lookup (p₃ : Pos) (l : Level ok) (k₂ k₃ : Key) : Option (TripleOf ok) :=
  (l.get k₂).bind (Node.lookup p₃ k₃)

section

variable {l l' : Level ok} {o : Option (Node ok)}
  (hget : ∀ k, l'.get k = if k = k₂ then o else l.get k)

include hget

/-- A level in which one node has changed. -/
theorem Level.Filed.change (h : Level.Filed p₁ p₂ p₃ k₁ l) (ho : ∀ n ∈ o, n.WF p₁ p₂ p₃ k₁ k₂) :
    Level.Filed p₁ p₂ p₃ k₁ l' := by
  intro k n hn
  rw [hget] at hn
  split_ifs at hn with hk
  · exact hk ▸ ho n hn
  · exact h k n hn

theorem Level.lookup_change {k₃ : Key} {x : Option (TripleOf ok)} (ho : ∀ j₃,
    o.bind (Node.lookup p₃ j₃) = if j₃ = k₃ then x else lookup p₃ l k₂ j₃) (j₂ j₃ : Key) :
    lookup p₃ l' j₂ j₃ = if j₂ = k₂ ∧ j₃ = k₃ then x else lookup p₃ l j₂ j₃ := by
  rw [← ite_under j₂ k₂ _ _ fun k => lookup p₃ l k j₃, ← ho, lookup, hget]
  split <;> rfl

end

theorem Top.WF.keys {e : Top ok} (h : e.WF p₁ p₂ p₃ k₁) {k₂ k₃ : Key}
    (ht : e.lookup p₂ p₃ k₂ k₃ = some t) :
    keyAt t p₁ = k₁ ∧ keyAt t p₂ = k₂ ∧ keyAt t p₃ = k₃ := by
  cases e with
  | one u =>
    obtain ⟨hk, rfl⟩ := Top.lookup_one.mp ht
    exact ⟨h, hk⟩
  | many l =>
    rw [Top.lookup, bind_eq_some_iff] at ht
    obtain ⟨n, hn, hlookup⟩ := ht
    exact (h.1 k₂ n hn).keys hlookup

/-- Unfolding a singleton changes no lookup. -/
theorem Top.level_lookup (e : Top ok) (k₂ k₃ : Key) :
    Level.lookup p₃ (e.level p₂) k₂ k₃ = e.lookup p₂ p₃ k₂ k₃ := by
  cases e with
  | many l => rfl
  | one u =>
    have hone : ∀ j, (some (Node.one u)).bind (Node.lookup p₃ j) =
        if j = keyAt u p₃ then some u else Level.lookup p₃ empty (keyAt u p₂) j :=
      fun j => if_congr eq_comm rfl rfl
    exact (Level.lookup_change (get_set _ _ _) hone k₂ k₃).trans
      (if_congr (and_congr eq_comm eq_comm) rfl rfl)

theorem Top.WF.level {e : Top ok} (h : e.WF p₁ p₂ p₃ k₁) :
    Level.Filed p₁ p₂ p₃ k₁ (e.level p₂) ∧ 0 < (e.level p₂).len := by
  cases e with
  | many l => exact ⟨h.1, h.2.1⟩
  | one u =>
    have hempty : Level.Filed p₁ p₂ p₃ k₁ (empty : Level ok) := by
      intro k n hget
      cases hget
    have hget := get_set empty (keyAt u p₂) (Node.one u)
    have hone := hget (keyAt u p₂)
    rw [if_pos rfl] at hone
    exact ⟨hempty.change hget (by rintro _ ⟨⟩; exact ⟨h, rfl⟩), len_pos_of_get hone⟩

/-- A triple joins a top that does not hold it. -/
theorem Top.add_spec (e : Top ok) (t : TripleOf ok) (h₁ : keyAt t p₁ = k₁)
    (hwf : e.WF p₁ p₂ p₃ k₁) (hnew : e.lookup p₂ p₃ (keyAt t p₂) (keyAt t p₃) = none) :
    (e.add p₂ p₃ t).WF p₁ p₂ p₃ k₁ ∧
      ∀ k₂ k₃, (e.add p₂ p₃ t).lookup p₂ p₃ k₂ k₃ =
        if k₂ = keyAt t p₂ ∧ k₃ = keyAt t p₃ then some t else e.lookup p₂ p₃ k₂ k₃ := by
  obtain ⟨hfiled, hpos⟩ := hwf.level
  rw [← Top.level_lookup] at hnew
  obtain ⟨hn, hlookup⟩ := Node.add_spec t ((e.level p₂).get (keyAt t p₂)) h₁ rfl
    (fun n hn => hfiled _ n hn) hnew
  refine ⟨⟨hfiled.change (get_set _ _ _) (by rintro _ ⟨⟩; exact hn), ?_⟩, fun k₂ k₃ => ?_⟩
  · -- A level of one entry was one already, so its node has just become a leaf.
    cases hget : (e.level p₂).get (keyAt t p₂) with
    | none =>
      have hlen := len_set_new hget (Node.add p₃ t none)
      exact ⟨by rw [hlen]; omega, fun hone => by rw [hlen] at hone; omega⟩
    | some n =>
      have hlen := len_set_present hget (Node.add p₃ t (some n))
      refine ⟨by rw [hlen]; exact hpos, ?_⟩
      intro hone k₂ n' hn'
      obtain ⟨k, v, -, hall⟩ := exists_of_len_one hone
      have hv : v = Node.add p₃ t (some n) := by
        have hk := hall (keyAt t p₂)
        rw [get_set, if_pos rfl] at hk
        exact some.inj (ite_none_right_eq_some.mp hk.symm).2
      rw [hall] at hn'
      rw [← some.inj (ite_none_right_eq_some.mp hn').2, hv]
      cases n <;> trivial
  · rw [← Top.level_lookup e]
    exact Level.lookup_change (get_set _ _ _) hlookup k₂ k₃

/-- A node loses one of its triples: nothing is left, a leaf, or one triple that takes the
    leaf's place. -/
theorem Level.get_remove {l : Level ok} {k₃ : Key} {n : Node ok} (hn : l.get k₂ = some n)
    (hwf : n.WF p₁ p₂ p₃ k₁ k₂) (ht : n.lookup p₃ k₃ = some t) :
    ∃ o : Option (Node ok), (∀ k, (remove l k₂ k₃).get k = if k = k₂ then o else l.get k) ∧
      (∀ n' ∈ o, n'.WF p₁ p₂ p₃ k₁ k₂) ∧
      ∀ k, o.bind (Node.lookup p₃ k) = if k = k₃ then none else n.lookup p₃ k := by
  rw [remove, hn]
  cases n with
  | one u =>
    refine ⟨none, get_delete l k₂, nofun, fun k => ?_⟩
    rw [bind_none, Node.lookup, (lookup_one.mp ht).1]
    split_ifs with hk hk'
    · rfl
    · exact absurd hk'.symm hk
    · rfl
  | many l₃ =>
    have hlen := len_delete ht
    -- The triples that stay are still under their keys.
    have hkeys : ∀ k u, (l₃.delete k₃).get k = some u →
        keyAt u p₁ = k₁ ∧ keyAt u p₂ = k₂ ∧ keyAt u p₃ = k := by
      intro k u hu
      rw [get_delete] at hu
      exact hwf.2 k u (ite_none_left_eq_some.mp hu).2
    by_cases hone : (l₃.delete k₃).len = 1
    · -- The leaf is folded into its last triple.
      obtain ⟨k, u, hentries, hall⟩ := exists_of_len_one hone
      have hvalues : (l₃.delete k₃).values = [u] := by rw [values, hentries]; rfl
      obtain ⟨h₁, h₂, h₃⟩ := hkeys k u (by rw [hall, if_pos rfl])
      refine ⟨some (.one u), fun j => ?_, ?_, fun j => ?_⟩
      · dsimp only
        rw [if_pos hone, hvalues, foldl_cons, foldl_nil, get_set, get_set]
        exact ite_congr rfl (fun _ => rfl) fun hj => if_neg hj
      · rintro _ ⟨⟩
        exact ⟨h₁, h₂⟩
      · rw [bind_some, Node.lookup, Node.lookup, ← get_delete, hall, h₃]
        exact if_congr eq_comm rfl rfl
    · refine ⟨some (.many (l₃.delete k₃)), fun j => ?_, ?_, get_delete l₃ k₃⟩
      · dsimp only
        rw [if_neg hone, get_set]
      · rintro _ ⟨⟩
        have htwo := hwf.1
        exact ⟨by omega, hkeys⟩

/-- A level loses the triple under `k₂`, `k₃`. -/
theorem Level.remove_spec {l : Level ok} {k₂ k₃ : Key}
    (hfiled : Level.Filed p₁ p₂ p₃ k₁ l) (ht : lookup p₃ l k₂ k₃ = some t) :
    Level.Filed p₁ p₂ p₃ k₁ (remove l k₂ k₃) ∧
      ∀ k k', lookup p₃ (remove l k₂ k₃) k k' =
        if k = k₂ ∧ k' = k₃ then none else lookup p₃ l k k' := by
  rw [lookup, bind_eq_some_iff] at ht
  obtain ⟨n, hn, ht⟩ := ht
  obtain ⟨o, hget, ho, hlookup⟩ := Level.get_remove hn (hfiled k₂ n hn) ht
  refine ⟨hfiled.change hget ho, lookup_change hget fun k => ?_⟩
  rw [hlookup, lookup, hn, bind_some]

end Level

/-! ## One index -/

/-- Every top is filed under its key and folded. -/
def Index.WF {p₁ p₂ p₃ : Pos} (idx : Index ok p₁ p₂ p₃) : Prop :=
  ∀ k₁ e, idx.m.lookup k₁ = some e → e.WF p₁ p₂ p₃ k₁

namespace Index

variable {p₁ p₂ p₃ : Pos}

theorem WF.keys {idx : Index ok p₁ p₂ p₃} (h : idx.WF) (ht : idx.lookup k₁ k₂ k₃ = some t) :
    keyAt t p₁ = k₁ ∧ keyAt t p₂ = k₂ ∧ keyAt t p₃ = k₃ := by
  rw [lookup, bind_eq_some_iff] at ht
  obtain ⟨e, he, ht⟩ := ht
  exact (h k₁ e he).keys ht

section

variable {idx idx' : Index ok p₁ p₂ p₃} {o : Option (Top ok)}
  (hget : ∀ k, idx'.m.lookup k = if k = k₁ then o else idx.m.lookup k)

include hget

/-- An index in which one top has changed. -/
theorem WF.change (h : idx.WF) (ho : ∀ e ∈ o, e.WF p₁ p₂ p₃ k₁) : idx'.WF := by
  intro k e he
  rw [hget] at he
  split_ifs at he with hk
  · exact hk ▸ ho e he
  · exact h k e he

theorem lookup_change {x : Option (TripleOf ok)} (ho : ∀ j₂ j₃, o.bind (Top.lookup p₂ p₃ j₂ j₃) =
    if j₂ = k₂ ∧ j₃ = k₃ then x else idx.lookup k₁ j₂ j₃) (j₁ j₂ j₃ : Key) :
    idx'.lookup j₁ j₂ j₃ =
      if j₁ = k₁ ∧ j₂ = k₂ ∧ j₃ = k₃ then x else idx.lookup j₁ j₂ j₃ := by
  rw [← ite_under j₁ k₁ _ _ fun k => idx.lookup k j₂ j₃, ← ho, lookup, hget]
  split <;> rfl

end

/-- `insert` files one more triple and changes no other lookup. -/
theorem insert_spec {idx : Index ok p₁ p₂ p₃} (h : idx.WF) (t : TripleOf ok)
    (hnew : idx.lookup (keyAt t p₁) (keyAt t p₂) (keyAt t p₃) = none) :
    (idx.insert (keyAt t p₁) t).WF ∧
      ∀ k₁ k₂ k₃, (idx.insert (keyAt t p₁) t).lookup k₁ k₂ k₃ =
        if k₁ = keyAt t p₁ ∧ k₂ = keyAt t p₂ ∧ k₃ = keyAt t p₃ then some t
        else idx.lookup k₁ k₂ k₃ := by
  have hsame : ∀ k₂ k₃, idx.lookup (keyAt t p₁) k₂ k₃ =
      (idx.m.lookup (keyAt t p₁)).bind (Top.lookup p₂ p₃ k₂ k₃) := fun _ _ => rfl
  rw [Index.insert]
  cases hget : idx.m.lookup (keyAt t p₁) with
  | none =>
    refine ⟨h.change (lookup_insert_goMap _ _ _) (by rintro _ ⟨⟩; rfl),
      lookup_change (lookup_insert_goMap _ _ _) fun k₂ k₃ => ?_⟩
    rw [hsame, hget]
    exact if_congr (and_congr eq_comm eq_comm) rfl rfl
  | some e =>
    rw [hsame, hget] at hnew
    obtain ⟨hwf, hlookup⟩ := Top.add_spec e t rfl (h _ e hget) hnew
    refine ⟨h.change (lookup_insert_goMap _ _ _) (by rintro _ ⟨⟩; exact hwf),
      lookup_change (lookup_insert_goMap _ _ _) fun k₂ k₃ => ?_⟩
    rw [hsame, hget]
    exact hlookup k₂ k₃

/-- What `delete` leaves under the first key when the level does not empty: the
    level, or the triple it is folded into. -/
theorem delete_many {l : Level ok}
    (hget : idx.m.lookup k₁ = some (.many l))
    (hfiled : Level.Filed p₁ p₂ p₃ k₁ (remove l k₂ k₃))
    (hlen : (remove l k₂ k₃).len ≠ 0) :
    ∃ e, idx.delete k₁ k₂ k₃ = ⟨idx.m.insert k₁ e⟩ ∧ e.WF p₁ p₂ p₃ k₁ ∧
      ∀ k k', e.lookup p₂ p₃ k k' = Level.lookup p₃ (Level.remove l k₂ k₃) k k' := by
  have hpos : 0 < (Level.remove l k₂ k₃).len := Nat.pos_of_ne_zero hlen
  rw [Index.delete, hget]
  dsimp only
  rw [if_neg hlen]
  by_cases hone : (remove l k₂ k₃).len = 1
  · obtain ⟨k₀, n, hentries, hall⟩ := exists_of_len_one hone
    have hvalues : (remove l k₂ k₃).values = [n] := by
      rw [values, hentries]
      rfl
    have hn : n.WF p₁ p₂ p₃ k₁ k₀ := hfiled k₀ n (by rw [hall, if_pos rfl])
    rw [if_pos hone, hvalues, foldl_cons, foldl_nil]
    cases n with
    | one u =>
      -- The level is down to one triple, which takes its place.
      refine ⟨.one u, congrArg mk (AList.insert_insert _), hn.1, fun k k' => ?_⟩
      rw [Level.lookup, hall, Top.lookup, hn.2]
      by_cases hk : k = k₀
      · rw [if_pos hk, bind_some]
        exact if_congr ⟨fun h => h.2, fun h => ⟨hk.symm, h⟩⟩ rfl rfl
      · rw [if_neg hk, if_neg (fun h => hk h.1.symm), bind_none]
    | many l₃ =>
      refine ⟨.many (remove l k₂ k₃), rfl, ⟨hfiled, hpos, fun _ k n hkn => ?_⟩, fun _ _ => rfl⟩
      rw [hall] at hkn
      rw [← some.inj (ite_none_right_eq_some.mp hkn).2]
      trivial
  · rw [if_neg hone]
    exact ⟨.many (remove l k₂ k₃), rfl, ⟨hfiled, hpos, fun h => absurd h hone⟩, fun _ _ => rfl⟩

/-- `delete` takes one triple out and changes no other lookup. -/
theorem delete_spec (h : idx.WF) (ht : idx.lookup k₁ k₂ k₃ = some t) :
    (idx.delete k₁ k₂ k₃).WF ∧
      ∀ j₁ j₂ j₃, (idx.delete k₁ k₂ k₃).lookup j₁ j₂ j₃ =
        if j₁ = k₁ ∧ j₂ = k₂ ∧ j₃ = k₃ then none else idx.lookup j₁ j₂ j₃ := by
  rw [lookup, bind_eq_some_iff] at ht
  obtain ⟨e, hget, ht⟩ := ht
  have hsame : ∀ j₂ j₃, idx.lookup k₁ j₂ j₃ = e.lookup p₂ p₃ j₂ j₃ := by
    intro j₂ j₃
    rw [lookup, hget, bind_some]
  -- A top that goes had the one triple only.
  have herase : idx.delete k₁ k₂ k₃ = ⟨idx.m.erase k₁⟩ →
      (∀ j₂ j₃, (if j₂ = k₂ ∧ j₃ = k₃ then none else e.lookup p₂ p₃ j₂ j₃) = none) →
      (idx.delete k₁ k₂ k₃).WF ∧ ∀ j₁ j₂ j₃, (idx.delete k₁ k₂ k₃).lookup j₁ j₂ j₃ =
        if j₁ = k₁ ∧ j₂ = k₂ ∧ j₃ = k₃ then none else idx.lookup j₁ j₂ j₃ := by
    intro hdelete hnone
    rw [hdelete]
    refine ⟨h.change (lookup_erase_goMap _ _) nofun,
      lookup_change (lookup_erase_goMap _ _) fun j₂ j₃ => ?_⟩
    rw [hsame, hnone, bind_none]
  cases e with
  | one u =>
    refine herase (by rw [Index.delete, hget]) fun j₂ j₃ => ?_
    obtain ⟨⟨hu₂, hu₃⟩, -⟩ := Top.lookup_one.mp ht
    rw [Top.lookup, hu₂, hu₃]
    split_ifs with hj hj'
    · rfl
    · exact absurd ⟨hj'.1.symm, hj'.2.symm⟩ hj
    · rfl
  | many l =>
    obtain ⟨hfiled, hlookup⟩ := remove_spec (h k₁ _ hget).1 ht
    by_cases hlen : (remove l k₂ k₃).len = 0
    · refine herase (by rw [Index.delete, hget]; exact if_pos hlen) fun j₂ j₃ => ?_
      refine (hlookup j₂ j₃).symm.trans ?_
      rw [Level.lookup]
      cases hj : (remove l k₂ k₃).get j₂ with
      | none => rfl
      | some n => exact absurd hlen (Nat.ne_of_gt (len_pos_of_get hj))
    · obtain ⟨e, hdelete, he, hel⟩ := delete_many hget hfiled hlen
      rw [hdelete]
      refine ⟨h.change (lookup_insert_goMap _ _ _) (by rintro _ ⟨⟩; exact he),
        lookup_change (lookup_insert_goMap _ _ _) fun j₂ j₃ => ?_⟩
      rw [bind_some, hel, hlookup, hsame]
      rfl

end Index

/-! ## What iteration yields -/

/-- The triples of a node, in iteration order. -/
def Node.triples : Node ok → List (TripleOf ok)
  | .one t => [t]
  | .many l => l.values

/-- The triples of a top, in iteration order. -/
def Top.triples : Top ok → List (TripleOf ok)
  | .one t => [t]
  | .many l => l.values.flatMap Node.triples

/-- The triples of an index, in iteration order. -/
def Index.triples {p₁ p₂ p₃ : Pos} (idx : Index ok p₁ p₂ p₃) : List (TripleOf ok) :=
  idx.m.entries.flatMap fun e => e.2.triples

theorem eachNode_lists {σ : Type} (n : Option (Node ok)) (yield : TripleOf ok → σ → Bool × σ)
    (s : σ) : eachNode n yield s = forEach yield ((n.map triples).getD []) s := by
  match n with
  | none => rfl
  | some (.one t) => exact (forEach_singleton yield t s).symm
  | some (.many l) => rfl

theorem eachTop_lists {σ : Type} (e : Option (Top ok)) (yield : TripleOf ok → σ → Bool × σ)
    (s : σ) : eachTop e yield s = forEach yield ((e.map Top.triples).getD []) s := by
  match e with
  | none => rfl
  | some (.one t) => exact (forEach_singleton yield t s).symm
  | some (.many l) =>
    exact forEach_lists (fun n _ yield s => eachNode_lists (some n) yield s) yield s

theorem length_node_triples (n : Node ok) : n.triples.length = n.len := by
  cases n with
  | one t => rfl
  | many l =>
    rw [Node.triples, values, length_map, length_entries, Node.len]

theorem length_top_triples (e : Top ok) : e.triples.length = e.len := by
  cases e with
  | one t => rfl
  | many l =>
    rw [Top.triples, length_flatMap, sum_eq_foldl, foldl_map, Top.len]
    simp only [length_node_triples]

section Enumeration

variable {p₁ p₂ p₃ : Pos} {k₁ k₂ : Key}

theorem Node.WF.mem_triples {n : Node ok} (h : n.WF p₁ p₂ p₃ k₁ k₂) (t : TripleOf ok) :
    t ∈ n.triples ↔ n.lookup p₃ (keyAt t p₃) = some t := by
  cases n with
  | one u =>
    rw [triples, mem_singleton, lookup_one]
    exact ⟨fun h => ⟨by rw [h], h.symm⟩, fun h => h.2.symm⟩
  | many l =>
    rw [triples, values, List.mem_map, lookup, ← mem_entries]
    constructor
    · rintro ⟨⟨k, u⟩, hmem, rfl⟩
      rw [(h.2 k u (mem_entries.mp hmem)).2.2]
      exact hmem
    · intro hmem
      exact ⟨_, hmem, rfl⟩

theorem Node.WF.nodup_triples {n : Node ok} (h : n.WF p₁ p₂ p₃ k₁ k₂) : n.triples.Nodup := by
  cases n with
  | one u => exact nodup_singleton u
  | many l =>
    have hflat : l.entries.flatMap (fun e => [e.2]) = l.values := by
      rw [values, ← flatMap_pure_eq_map]
      rfl
    rw [triples, ← hflat]
    refine nodup_flatMap_of_keys l.keysNodup_entries (fun u => [u]) (fun u => keyAt u p₃) ?_
      (fun _ _ => nodup_singleton _)
    rintro ⟨k, u⟩ hmem v hv
    rw [mem_singleton.mp hv]
    exact (h.2 k u (mem_entries.mp hmem)).2.2

theorem Top.WF.mem_triples {e : Top ok} (h : e.WF p₁ p₂ p₃ k₁) (t : TripleOf ok) :
    t ∈ e.triples ↔ e.lookup p₂ p₃ (keyAt t p₂) (keyAt t p₃) = some t := by
  cases e with
  | one u =>
    rw [Top.triples, mem_singleton, Top.lookup_one]
    exact ⟨fun h => ⟨by rw [h]; exact ⟨rfl, rfl⟩, h.symm⟩, fun h => h.2.symm⟩
  | many l =>
    rw [Top.triples, mem_flatMap, Top.lookup, bind_eq_some_iff]
    constructor
    · rintro ⟨n, hn, ht⟩
      obtain ⟨⟨k, n⟩, hmem, rfl⟩ := mem_map.mp hn
      have hget := mem_entries.mp hmem
      have hnwf := h.1 k n hget
      rw [hnwf.mem_triples] at ht
      rw [(hnwf.keys ht).2.1]
      exact ⟨n, hget, ht⟩
    · rintro ⟨n, hget, ht⟩
      exact ⟨n, mem_map.mpr ⟨_, mem_entries.mpr hget, rfl⟩, ((h.1 _ n hget).mem_triples t).mpr ht⟩

theorem Top.WF.nodup_triples {e : Top ok} (h : e.WF p₁ p₂ p₃ k₁) : e.triples.Nodup := by
  cases e with
  | one u => exact nodup_singleton u
  | many l =>
    rw [Top.triples, values, flatMap_map]
    refine nodup_flatMap_of_keys l.keysNodup_entries Node.triples (fun u => keyAt u p₂) ?_ ?_
    · rintro ⟨k, n⟩ hmem u hu
      have hnwf := h.1 k n (mem_entries.mp hmem)
      exact (hnwf.keys ((hnwf.mem_triples u).mp hu)).2.1
    · rintro ⟨k, n⟩ hmem
      exact (h.1 k n (mem_entries.mp hmem)).nodup_triples

end Enumeration

namespace Index

variable {p₁ p₂ p₃ : Pos}

theorem WF.mem_triples {idx : Index ok p₁ p₂ p₃} (h : idx.WF) (t : TripleOf ok) :
    t ∈ idx.triples ↔ idx.lookup (keyAt t p₁) (keyAt t p₂) (keyAt t p₃) = some t := by
  rw [triples, mem_flatMap, lookup, bind_eq_some_iff]
  constructor
  · rintro ⟨⟨k, e⟩, hmem, ht⟩
    have hget : idx.m.lookup k = some e := AList.mem_lookup_iff.mpr hmem
    have hewf := h k e hget
    rw [hewf.mem_triples] at ht
    rw [(hewf.keys ht).1]
    exact ⟨e, hget, ht⟩
  · rintro ⟨e, hget, ht⟩
    exact ⟨⟨_, e⟩, AList.mem_lookup_iff.mp hget, ((h _ e hget).mem_triples t).mpr ht⟩

theorem WF.nodup_triples (h : idx.WF) : idx.triples.Nodup := by
  have hflat : (idx.m.entries.map fun e => (e.1, e.2)).flatMap (fun e => e.2.triples) =
      idx.triples := by
    rw [flatMap_map]
    rfl
  have hkeys : KeysNodup (idx.m.entries.map fun e => (e.1, e.2)) :=
    (map idx.m).keysNodup_entries
  rw [← hflat]
  refine nodup_flatMap_of_keys hkeys Top.triples (fun u => keyAt u p₁) ?_ ?_
  · rintro ⟨k, e⟩ hmem u hu
    have hget : idx.m.lookup k = some e := (mem_goMap_entries idx.m k e).mp hmem
    exact ((h k e hget).keys (((h k e hget).mem_triples u).mp hu)).1
  · rintro ⟨k, e⟩ hmem
    exact (h k e ((mem_goMap_entries idx.m k e).mp hmem)).nodup_triples

end Index

end GoRdf
