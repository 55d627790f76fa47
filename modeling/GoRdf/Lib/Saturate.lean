import GoRdf.Lib.Search
import Mathlib.Data.Set.Card

/-!
# Saturation by Passes

An engine that adds facts to a list until a pass finds none. A pass offers facts
computed from the facts so far and from an index of them. An offer is kept when
its key has not been seen, and then its key has been seen. The index is built
again only after a pass that keeps a fact the index depends on.

Two things make such an engine less than a closure. The index may be older than
the facts: `Kept.index` says what of the facts it has seen. And keys may collide:
an offer whose key is taken is lost, and `facts_eq_iff` says that nothing is lost
exactly when the facts to be found have keys of their own.

## Main definitions

* `Engine`, `Memory`: What a pass does, and what the engine carries.
* `Engine.run`: Passes until one keeps nothing.
* `Engine.Kept`: What every pass leaves true.
* `Engine.Passes`, `Engine.Built`: The states of a run, and the facts it indexes.
* `Engine.Stays`: The offers do not leave a set.
* `Separate`: The facts to be found have keys of their own.

## Theorems

* `Engine.run_passes`: A run ends with one of its states.
* `Engine.Passes.index`: The index of a state is one that was built.
* `Engine.exists_run`: Inside a finite set, the run ends.
* `Engine.offers_mem`: With separate keys, a run ends where all offers are known.
* `Engine.facts_eq_iff`: A run finds all of a set exactly when keys are separate.
-/

namespace GoRdf

open List

namespace Lib

variable {α κ ι : Type*}

/-! ## Passes -/

/-- What an engine does in a pass: `key` tells facts apart, `build` makes the
    index, `offers` is what the rules derive, and `schema` marks the facts after
    which the index is built again. The number is that of the pass. -/
structure Engine (α κ ι : Type*) where
  key : α → κ
  build : Nat → List α → ι
  offers : Nat → ι → List α → List α
  schema : α → Bool

/-- What an engine carries from pass to pass. -/
structure Memory (α κ ι : Type*) where
  facts : List α
  seen : List κ
  index : ι
  added : Nat

namespace Engine

variable (E : Engine α κ ι)

/-- Before the first pass. -/
def start (g : List α) : Memory α κ ι :=
  { facts := g, seen := g.map E.key, index := E.build 0 g, added := 0 }

/-- After pass `n` has kept `new`. -/
def absorb (n : Nat) (st : Memory α κ ι) (new : List α) : Memory α κ ι :=
  { facts := st.facts ++ new
    seen := new.map E.key ++ st.seen
    index := if new.any E.schema then E.build (n + 1) (st.facts ++ new) else st.index
    added := st.added + new.length }

/-- What every pass leaves true of a run that started with the facts `g`. -/
structure Kept (g : List α) (st : Memory α κ ι) : Prop where
  facts : ∃ new, st.facts = g ++ new ∧ (new.map E.key).Nodup ∧
    (∀ a ∈ new, E.key a ∉ g.map E.key) ∧ st.added = new.length
  seen : ∀ k, k ∈ st.seen ↔ k ∈ st.facts.map E.key
  index : ∃ n old later, st.facts = old ++ later ∧ (∀ a ∈ g, a ∈ old) ∧
    (∀ a ∈ later, E.schema a = false) ∧ st.index = E.build n old

variable {E} {g : List α} {st : Memory α κ ι} {n : Nat}

theorem kept_start (g : List α) : E.Kept g (E.start g) where
  facts := ⟨[], by simp [start]⟩
  seen := by simp [start]
  index := ⟨0, g, [], by simp [start]⟩

theorem Kept.subset (h : E.Kept g st) : ∀ a ∈ g, a ∈ st.facts := by
  intro a ha
  rcases h.facts with ⟨new, hfacts, -⟩
  rw [hfacts]
  exact mem_append_left _ ha

theorem Kept.length (h : E.Kept g st) : st.facts.length = g.length + st.added := by
  rcases h.facts with ⟨new, hfacts, -, -, hadded⟩
  rw [hfacts, length_append, hadded]

theorem Kept.nodup (h : E.Kept g st) (hg : g.Nodup) : st.facts.Nodup := by
  rcases h.facts with ⟨new, hfacts, hnodup, hnew, -⟩
  rw [hfacts, nodup_append]
  refine ⟨hg, hnodup.of_map _, ?_⟩
  intro a ha b hb hab
  exact hnew b hb (hab ▸ mem_map_of_mem ha)

/-! ## Runs -/

variable [DecidableEq κ]

variable (E) in
/-- What pass `n` keeps. -/
def pass (n : Nat) (st : Memory α κ ι) : List α :=
  fresh E.key st.seen (E.offers n st.index st.facts)

variable (E) in
/-- Passes until one keeps nothing, or `none` when the fuel is used up. -/
def run : Nat → Nat → Memory α κ ι → Option (Memory α κ ι)
  | 0, _, _ => none
  | fuel + 1, n, st =>
    if (E.pass n st).isEmpty then some st
    else run fuel (n + 1) (E.absorb n st (E.pass n st))

/-- A pass keeps facts with new keys, and it leaves an index that has seen all
    facts it depends on. -/
theorem Kept.absorb (h : E.Kept g st) : E.Kept g (E.absorb n st (E.pass n st)) where
  facts := by
    rcases h.facts with ⟨new, hfacts, hnodup, hnew, hadded⟩
    have hfresh : ∀ a ∈ E.pass n st, E.key a ∉ st.facts.map E.key := by
      intro a ha hk
      exact (mem_fresh ha).2 ((h.seen _).mpr hk)
    refine ⟨new ++ E.pass n st, by simp [Engine.absorb, hfacts], ?_, ?_, ?_⟩
    · rw [map_append, nodup_append]
      refine ⟨hnodup, nodup_fresh _ _, ?_⟩
      intro k hk k' hk' hkk
      rcases mem_map.mp hk' with ⟨a, ha, rfl⟩
      apply hfresh a ha
      rw [hfacts, map_append, ← hkk]
      exact mem_append_right _ hk
    · intro a ha
      rcases mem_append.mp ha with ha | ha
      · exact hnew a ha
      · intro hk
        apply hfresh a ha
        rw [hfacts, map_append]
        exact mem_append_left _ hk
    · simp [Engine.absorb, hadded]
  seen := by
    intro k
    simp only [Engine.absorb, mem_append, map_append, h.seen k]
    exact or_comm
  index := by
    rcases h.index with ⟨m, old, later, hfacts, hold, hlater, hindex⟩
    by_cases hany : (E.pass n st).any E.schema = true
    · refine ⟨n + 1, st.facts ++ E.pass n st, [], by simp [Engine.absorb], ?_, by simp,
        by simp [Engine.absorb, hany]⟩
      exact fun a ha => mem_append_left _ (h.subset a ha)
    · refine ⟨m, old, later ++ E.pass n st, by simp [Engine.absorb, hfacts], hold, ?_, ?_⟩
      · intro a ha
        rcases mem_append.mp ha with ha | ha
        · exact hlater a ha
        · have hall := hany
          simp only [any_eq_true, not_exists, not_and, Bool.not_eq_true] at hall
          exact hall a ha
      · simp [Engine.absorb, hany, hindex]

theorem run_mono {fuel fuel' : Nat} {st' : Memory α κ ι} (hle : fuel ≤ fuel')
    (h : E.run fuel n st = some st') : E.run fuel' n st = some st' := by
  induction fuel generalizing n st fuel' with
  | zero => simp [run] at h
  | succ fuel ih =>
    rcases fuel' with _ | fuel'
    · omega
    · simp only [run] at h ⊢
      split_ifs at h ⊢ with hempty
      · exact h
      · exact ih (by omega) h

variable (E) in
/-- The offers do not leave the set `D`, whenever the index has seen the facts `g` the
    run started with. Facts are never kept twice. -/
def Stays (g : List α) (D : Set α) : Prop :=
  ∀ ⦃m n old later⦄, (old ++ later).Nodup → (∀ a ∈ g, a ∈ old) → (∀ a ∈ old ++ later, a ∈ D) →
    ∀ a ∈ E.offers n (E.build m old) (old ++ later), a ∈ D

omit [DecidableEq κ] in
theorem Stays.offers {D : Set α} (h : E.Stays g D) (hg : g.Nodup) (hkept : E.Kept g st)
    (hD : ∀ a ∈ st.facts, a ∈ D) : ∀ a ∈ E.offers n st.index st.facts, a ∈ D := by
  have hnodup := hkept.nodup hg
  rcases hkept.index with ⟨m, old, later, hfacts, hold, -, hindex⟩
  rw [hfacts] at hD hnodup ⊢
  rw [hindex]
  exact h hnodup hold hD

theorem Stays.pass {D : Set α} (h : E.Stays g D) (hg : g.Nodup) (hkept : E.Kept g st)
    (hD : ∀ a ∈ st.facts, a ∈ D) : ∀ a ∈ E.pass n st, a ∈ D :=
  fun a ha => h.offers hg hkept hD a (mem_fresh ha).1

variable (E) in
/-- The state before a pass, with the number of the pass. -/
inductive Passes (g : List α) : Nat → Memory α κ ι → Prop
  | start : Passes g 0 (E.start g)
  | next {n : Nat} {st : Memory α κ ι} (h : Passes g n st) (hnew : E.pass n st ≠ []) :
      Passes g (n + 1) (E.absorb n st (E.pass n st))

variable (E) in
/-- The facts that the index is built of: those at the start, and those after a pass
    that has kept a fact the index depends on. -/
def Built (g : List α) (m : Nat) (old : List α) : Prop :=
  m = 0 ∧ old = g ∨
    ∃ n st, E.Passes g n st ∧ (E.pass n st).any E.schema = true ∧ m = n + 1 ∧
      old = st.facts ++ E.pass n st

theorem Passes.kept (h : E.Passes g n st) : E.Kept g st := by
  induction h with
  | start => exact kept_start g
  | next _ _ ih => exact ih.absorb

/-- The index of a state is one that was built, of the first of its facts. -/
theorem Passes.index (h : E.Passes g n st) :
    ∃ m old later, E.Built g m old ∧ st.facts = old ++ later ∧ st.index = E.build m old := by
  induction h with
  | start => exact ⟨0, g, [], .inl ⟨rfl, rfl⟩, by simp [Engine.start], rfl⟩
  | @next n st h _ ih =>
    by_cases hany : (E.pass n st).any E.schema = true
    · exact ⟨n + 1, _, [], .inr ⟨n, st, h, hany, rfl, rfl⟩, by simp [Engine.absorb],
        by simp [Engine.absorb, hany]⟩
    · rcases ih with ⟨m, old, later, hbuilt, hfacts, hindex⟩
      exact ⟨m, old, later ++ E.pass n st, hbuilt, by simp [Engine.absorb, hfacts],
        by simp [Engine.absorb, hany, hindex]⟩

/-- The states of a run stay in a set that their offers do not leave. -/
theorem Passes.subset {D : Set α} (hg : ∀ a ∈ g, a ∈ D)
    (hoffers : ∀ n st, E.Passes g n st → (∀ a ∈ st.facts, a ∈ D) →
      ∀ a ∈ E.offers n st.index st.facts, a ∈ D)
    (h : E.Passes g n st) : ∀ a ∈ st.facts, a ∈ D := by
  induction h with
  | start => exact hg
  | @next n st h _ ih =>
    intro a ha
    rcases mem_append.mp ha with ha | ha
    · exact ih a ha
    · exact hoffers n st h ih a (mem_fresh ha).1

/-- A run that ends, ends with one of its states. -/
theorem run_passes {fuel : Nat} {st' : Memory α κ ι} (h : E.Passes g n st)
    (hrun : E.run fuel n st = some st') : ∃ n', E.Passes g n' st' := by
  induction fuel generalizing n st with
  | zero => simp [run] at hrun
  | succ fuel ih =>
    simp only [run] at hrun
    split_ifs at hrun with hempty
    · cases hrun
      exact ⟨n, h⟩
    · exact ih (h.next (by simpa using hempty)) hrun

/-- Inside a finite set `D` that the offers do not leave, the run ends, with a
    pass that keeps nothing. -/
theorem exists_run_of_kept {D : Set α} (hfin : D.Finite) (hg : g.Nodup) (hoffers : E.Stays g D) :
    ∀ (fuel : Nat) {n : Nat} {st : Memory α κ ι}, E.Kept g st → (∀ a ∈ st.facts, a ∈ D) →
      D.ncard < fuel + st.added →
      ∃ st' n', E.run fuel n st = some st' ∧ E.Kept g st' ∧ (∀ a ∈ st'.facts, a ∈ D) ∧
        E.pass n' st' = []
  | 0, n, st, hkept, hD, hfuel => by
    -- As many facts have been added as `D` has, and one more.
    rcases hkept.facts with ⟨new, hfacts, hnodup, -, hadded⟩
    have hsub : {a | a ∈ new} ⊆ D := by
      intro a ha
      exact hD a (by rw [hfacts]; exact mem_append_right _ ha)
    have hcard : new.length ≤ D.ncard := by
      classical
      have hcoe : {a | a ∈ new} = (new.toFinset : Set α) := by ext a; simp
      have hle := Set.ncard_le_ncard hsub hfin
      rw [hcoe, Set.ncard_coe_finset, toFinset_card_of_nodup (hnodup.of_map _)] at hle
      exact hle
    omega
  | fuel + 1, n, st, hkept, hD, hfuel => by
    simp only [run]
    split_ifs with hempty
    · exact ⟨st, n, rfl, hkept, hD, by simpa using hempty⟩
    · have hlen : 0 < (E.pass n st).length := by
        rw [length_pos_iff]
        simpa using hempty
      refine exists_run_of_kept hfin hg hoffers fuel hkept.absorb ?_ ?_
      · intro a ha
        rcases mem_append.mp ha with ha | ha
        · exact hD a ha
        · exact hoffers.pass hg hkept hD a ha
      · simp only [Engine.absorb]
        omega

theorem exists_run {D : Set α} (hfin : D.Finite) (hnodup : g.Nodup) (hg : ∀ a ∈ g, a ∈ D)
    (hoffers : E.Stays g D) :
    ∃ st n, (∀ fuel, D.ncard < fuel → E.run fuel 0 (E.start g) = some st) ∧ E.Kept g st ∧
      (∀ a ∈ st.facts, a ∈ D) ∧ E.pass n st = [] := by
  rcases exists_run_of_kept hfin hnodup hoffers (D.ncard + 1) (n := 0) (kept_start g) hg
    (Nat.lt_succ_self _) with ⟨st, n, hrun, hkept, hD, hpass⟩
  exact ⟨st, n, fun fuel hfuel => run_mono (by omega) hrun, hkept, hD, hpass⟩

end Engine

/-! ## Keys -/

/-- The elements of `D` beyond `g` have keys of their own in `D`. -/
def Separate (key : α → κ) (g : List α) (D : Set α) : Prop :=
  ∀ a ∈ D, a ∉ g → ∀ b ∈ D, key b = key a → b = a

namespace Engine

variable [DecidableEq κ] {E : Engine α κ ι} {g : List α} {st : Memory α κ ι} {n : Nat}
  {D : Set α}

theorem offers_mem (hkept : E.Kept g st) (hD : ∀ a ∈ st.facts, a ∈ D)
    (hsep : Separate E.key g D) (hpass : E.pass n st = []) {a : α}
    (ha : a ∈ E.offers n st.index st.facts) (haD : a ∈ D) : a ∈ st.facts := by
  by_cases hag : a ∈ g
  · exact hkept.subset a hag
  · have hseen : E.key a ∈ st.facts.map E.key := by
      rcases key_mem_fresh st.seen ha with hs | hf
      · exact (hkept.seen _).mp hs
      · unfold pass at hpass
        rw [hpass] at hf
        simp at hf
    rcases mem_map.mp hseen with ⟨b, hb, hkey⟩
    rw [← hsep a haD hag b (hD b hb) hkey]
    exact hb

/-- A run inside `D` that stops only where its facts are all of `D`, unless an
    offer is lost, finds all of `D` exactly when keys are separate. -/
theorem facts_eq_iff (hkept : E.Kept g st) (hD : ∀ a ∈ st.facts, a ∈ D)
    (hpass : E.pass n st = []) (hoffers : ∀ a ∈ E.offers n st.index st.facts, a ∈ D)
    (hclosed : (∀ a ∈ E.offers n st.index st.facts, a ∈ st.facts) → ∀ a ∈ D, a ∈ st.facts) :
    (∀ a, a ∈ st.facts ↔ a ∈ D) ↔ Separate E.key g D := by
  constructor
  · intro heq a ha hag b hb hkey
    rcases hkept.facts with ⟨new, hfacts, hnodup, hnew, -⟩
    have split : ∀ c ∈ D, c ∈ g ∨ c ∈ new := by
      intro c hc
      have hmem := (heq c).mpr hc
      rw [hfacts] at hmem
      exact mem_append.mp hmem
    have han : a ∈ new := (split a ha).resolve_left hag
    rcases split b hb with hbg | hbn
    · exact absurd (by rw [← hkey]; exact mem_map_of_mem hbg) (hnew a han)
    · exact inj_on_of_nodup_map hnodup hbn han hkey
  · intro hsep a
    refine ⟨hD a, ?_⟩
    refine hclosed ?_ a
    intro b hb
    exact offers_mem hkept hD hsep hpass hb (hoffers b hb)

end Engine

end Lib

end GoRdf
