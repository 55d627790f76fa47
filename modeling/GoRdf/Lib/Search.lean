import Mathlib.Data.Finset.Card
import Mathlib.Logic.Relation

/-!
# Breadth-First Search

Two searches that tell values apart by a key.

The first walks a multimap that files the successors of a value under its key.
It marks a value when it takes it from the queue, so the queue may hold one
value many times. If a step marks a key, the entries under that key move from
the multimap to the queue, and they never move twice. The queue and the entries
under unmarked keys together lose exactly one value a step, which is the fuel
the search needs (`closed_search`).

The second asks a function for the successors and marks a value when it puts it
on the queue. A value is queued only once, so the values that can be reached
bound its turns (`Exploring.advance`).

## Main definitions

* `fresh`: The values whose key comes up for the first time.
* `entries`, `search`, `Reaches`: The first search, and a chain of entries.
* `Frontier`, `Frontier.advance`: The second search.
* `Exploring`: What a turn of it leaves true.

## Theorems

* `reaches_search`: Every value found is reached.
* `closed_search`: With enough fuel, what is queued is found or was marked.
* `search_complete`: With enough fuel, every key that is reached is found.
* `Exploring.advance`: With enough fuel, the second search empties its queue.
* `Exploring.complete`: Then it has found all that can be reached.
-/

namespace GoRdf

open List Relation

namespace Lib

variable {α κ : Type*} [DecidableEq κ]

/-! ## First occurrences -/

/-- The offers whose key is not marked, each marking its key in turn. -/
def fresh (key : α → κ) : List κ → List α → List α
  | _, [] => []
  | seen, a :: offers =>
    if key a ∈ seen then fresh key seen offers
    else a :: fresh key (key a :: seen) offers

section

variable {key : α → κ}

theorem mem_fresh : ∀ {offers : List α} {seen : List κ} {a : α}, a ∈ fresh key seen offers →
    a ∈ offers ∧ key a ∉ seen
  | [], _, _, h => by simp [fresh] at h
  | b :: offers, seen, a, h => by
    unfold fresh at h
    split_ifs at h with hb
    · rcases mem_fresh h with ⟨ha, hk⟩
      exact ⟨mem_cons_of_mem _ ha, hk⟩
    · rcases mem_cons.mp h with rfl | h
      · exact ⟨mem_cons_self, hb⟩
      · rcases mem_fresh h with ⟨ha, hk⟩
        exact ⟨mem_cons_of_mem _ ha, fun hs => hk (mem_cons_of_mem _ hs)⟩

theorem nodup_fresh : ∀ (offers : List α) (seen : List κ), ((fresh key seen offers).map key).Nodup
  | [], _ => nodup_nil
  | b :: offers, seen => by
    unfold fresh
    split_ifs with hb
    · exact nodup_fresh offers seen
    · rw [map_cons, nodup_cons]
      refine ⟨?_, nodup_fresh offers _⟩
      intro hmem
      rcases mem_map.mp hmem with ⟨c, hc, hkey⟩
      exact (mem_fresh hc).2 (by rw [hkey]; exact mem_cons_self)

/-- An offer is kept, or its key is marked. -/
theorem key_mem_fresh : ∀ {offers : List α} (seen : List κ) {a : α}, a ∈ offers →
    key a ∈ seen ∨ key a ∈ (fresh key seen offers).map key
  | b :: offers, seen, a, h => by
    unfold fresh
    split_ifs with hb
    · rcases mem_cons.mp h with rfl | h
      · exact .inl hb
      · exact key_mem_fresh seen h
    · rw [map_cons, mem_cons]
      rcases mem_cons.mp h with rfl | h
      · exact .inr (.inl rfl)
      · rcases key_mem_fresh (key b :: seen) h with hs | hf
        · rcases mem_cons.mp hs with hs | hs
          · exact .inr (.inl hs)
          · exact .inl hs
        · exact .inr (.inr hf)

/-- Where keys tell the offers apart, an offer is kept unless its key was marked. -/
theorem mem_fresh_iff {offers : List α} {seen : List κ}
    (hinj : ∀ a ∈ offers, ∀ b ∈ offers, key a = key b → a = b) {a : α} :
    a ∈ fresh key seen offers ↔ a ∈ offers ∧ key a ∉ seen := by
  refine ⟨mem_fresh, ?_⟩
  rintro ⟨ha, hs⟩
  rcases mem_map.mp ((key_mem_fresh seen ha).resolve_left hs) with ⟨b, hb, hkey⟩
  rw [← hinj b (mem_fresh hb).1 a ha hkey]
  exact hb

/-- Keeping first occurrences loses no value. -/
theorem mem_fresh_id {l : List κ} {a : κ} : a ∈ fresh id [] l ↔ a ∈ l := by
  rw [mem_fresh_iff fun _ _ _ _ (h : id _ = id _) => h]
  simp

end

/-! ## Search in a multimap -/

/-- What the multimap `m` files under `k`, in the order it was appended. -/
def entries (m : List (κ × α)) (k : κ) : List α :=
  (m.filter fun e => e.1 = k).map Prod.snd

theorem mem_entries {m : List (κ × α)} {k : κ} {a : α} : a ∈ entries m k ↔ (k, a) ∈ m := by
  constructor
  · intro h
    rcases mem_map.mp h with ⟨e, he, rfl⟩
    rcases mem_filter.mp he with ⟨hm, hk⟩
    have hk : e.1 = k := by simpa using hk
    rw [← hk]
    exact hm
  · intro h
    exact mem_map.mpr ⟨(k, a), mem_filter.mpr ⟨h, by simp⟩, rfl⟩

theorem length_entries_le (m : List (κ × α)) (k : κ) : (entries m k).length ≤ m.length := by
  unfold entries
  rw [length_map]
  exact length_filter_le _ _

/-- The values found from a queue, when the keys in `seen` are already marked. -/
def search (m : List (κ × α)) (key : α → κ) : Nat → List κ → List α → List α
  | 0, _, _ => []
  | _ + 1, _, [] => []
  | n + 1, seen, a :: queue =>
    if key a ∈ seen then search m key n seen queue
    else a :: search m key n (key a :: seen) (queue ++ entries m (key a))

/-- A chain of entries that starts under a key. -/
inductive Reaches (m : List (κ × α)) (key : α → κ) : κ → α → Prop
  | entry {k : κ} {a : α} (h : a ∈ entries m k) : Reaches m key k a
  | step {k : κ} {b a : α} (hb : Reaches m key k b) (h : a ∈ entries m (key b)) :
      Reaches m key k a

section

variable {m : List (κ × α)} {key : α → κ}

/-- A chain of entries is one of the relation they file. -/
theorem reaches_iff_transGen {R : α → α → Prop} {K : α → Prop} (hK : ∀ e ∈ m, K e.2)
    (hentry : ∀ {a b}, K a → (b ∈ entries m (key a) ↔ R a b)) {a b : α} (ha : K a) :
    Reaches m key (key a) b ↔ TransGen R a b := by
  have hnext : ∀ {a b}, K a → R a b → K b := fun ha h =>
    hK _ (mem_entries.mp ((hentry ha).mpr h))
  constructor
  · intro h
    suffices K b ∧ TransGen R a b from this.2
    generalize hk : key a = k at h
    induction h with
    | entry h =>
      have hR := (hentry ha).mp (hk ▸ h)
      exact ⟨hnext ha hR, .single hR⟩
    | step _ h ih =>
      have hR := (hentry ih.1).mp h
      exact ⟨hnext ih.1 hR, .tail ih.2 hR⟩
  · intro h
    suffices K b ∧ Reaches m key (key a) b from this.2
    induction h with
    | single h => exact ⟨hnext ha h, .entry ((hentry ha).mpr h)⟩
    | tail _ h ih => exact ⟨hnext ih.1 h, .step ih.2 ((hentry ih.1).mpr h)⟩

theorem reaches_search {k : κ} : ∀ {n : Nat} {seen : List κ} {queue : List α},
    (∀ b ∈ queue, Reaches m key k b) → ∀ a ∈ search m key n seen queue, Reaches m key k a
  | 0, _, _, _, a, ha | _ + 1, _, [], _, a, ha => by simp [search] at ha
  | n + 1, seen, b :: queue, hq, a, ha => by
    have hrest : ∀ c ∈ queue, Reaches m key k c := fun c hc => hq c (mem_cons_of_mem _ hc)
    unfold search at ha
    split_ifs at ha with hb
    · exact reaches_search hrest a ha
    · rcases mem_cons.mp ha with rfl | ha
      · exact hq a mem_cons_self
      · refine reaches_search ?_ a ha
        intro c hc
        rcases mem_append.mp hc with hc | hc
        · exact hrest c hc
        · exact .step (hq b mem_cons_self) hc

/-- The steps the search has left: the queue, and what is filed under keys that
    are not marked. -/
def pending (m : List (κ × α)) (seen : List κ) (queue : List α) : Nat :=
  queue.length + (m.filter fun e => e.1 ∉ seen).length

theorem pending_le (m : List (κ × α)) (seen : List κ) (queue : List α) :
    pending m seen queue ≤ queue.length + m.length :=
  Nat.add_le_add_left (length_filter_le _ _) _

/-- Marking a key takes its entries out of the second part of `pending`. -/
theorem pending_mark {seen : List κ} {queue : List α} {k : κ} (hk : k ∉ seen) :
    pending m (k :: seen) (queue ++ entries m k) = pending m seen queue := by
  have hsplit := length_eq_length_filter_add (l := m.filter fun e => e.1 ∉ seen) (·.1 = k)
  have hunder : (m.filter fun e => e.1 ∉ seen).filter (·.1 = k) = m.filter (·.1 = k) := by
    rw [filter_filter]
    exact filter_congr fun e _ => by grind
  have hothers : (m.filter fun e => e.1 ∉ seen).filter (fun e => !decide (e.1 = k)) =
      m.filter fun e => e.1 ∉ k :: seen := by
    rw [filter_filter]
    exact filter_congr fun e _ => by grind
  rw [hunder, hothers] at hsplit
  unfold pending entries
  rw [length_append, length_map]
  omega

/-- With enough fuel, every queued value is found or was marked, and so is every
    entry of a value found. Values are compared by their keys. -/
theorem closed_search (key : α → κ) : ∀ {n : Nat} {seen : List κ} {queue : List α},
    pending m seen queue ≤ n →
    (∀ b ∈ queue, key b ∈ seen ∨ key b ∈ (search m key n seen queue).map key) ∧
    ∀ a ∈ search m key n seen queue, ∀ b ∈ entries m (key a),
      key b ∈ seen ∨ key b ∈ (search m key n seen queue).map key
  | 0, _, [], _ | _ + 1, _, [], _ => by simp [search]
  | 0, _, _ :: _, h => by
    simp [pending] at h
  | n + 1, seen, a :: queue, h => by
    have hn : pending m seen queue ≤ n := by
      unfold pending at h ⊢
      rw [length_cons] at h
      omega
    unfold search
    split_ifs with ha
    · rcases closed_search key hn with ⟨hqueue, hclosed⟩
      refine ⟨?_, hclosed⟩
      intro b hb
      rcases mem_cons.mp hb with rfl | hb
      · exact .inl ha
      · exact hqueue b hb
    · rcases closed_search key ((pending_mark ha).trans_le hn) with ⟨hqueue, hclosed⟩
      generalize search m key n (key a :: seen) _ = found at hqueue hclosed ⊢
      have hmark : ∀ k, k ∈ key a :: seen ∨ k ∈ found.map key →
          k ∈ seen ∨ k ∈ (a :: found).map key := by
        intro k hk
        rw [map_cons, mem_cons]
        rw [mem_cons] at hk
        tauto
      refine ⟨?_, ?_⟩
      · intro b hb
        rcases mem_cons.mp hb with rfl | hb
        · exact .inr (by simp)
        · exact hmark _ (hqueue b (mem_append_left _ hb))
      · intro b hb c hc
        rcases mem_cons.mp hb with rfl | hb
        · exact hmark _ (hqueue c (mem_append_right _ hc))
        · exact hmark _ (hclosed b hb c hc)

/-- With enough fuel, every key a chain of entries leads to is found. -/
theorem search_complete {n : Nat} {k : κ} (hn : pending m [] (entries m k) ≤ n) {a : α}
    (h : Reaches m key k a) : key a ∈ (search m key n [] (entries m k)).map key := by
  rcases closed_search key hn with ⟨hqueue, hclosed⟩
  induction h with
  | entry h => exact (hqueue _ h).resolve_left (by simp)
  | step _ h ih =>
    rcases mem_map.mp ih with ⟨c, hc, hkey⟩
    rw [← hkey] at h
    exact (hclosed c hc _ h).resolve_left (by simp)

end

/-! ## Search that marks what it queues -/

/-- A search that marks a value as soon as it is queued: the marks, the values
    found so far, and those among them whose successors are still to be asked
    for. -/
structure Frontier (α κ : Type*) where
  visited : List κ
  result : List α
  queue : List α

/-- The loop of the search. -/
def Frontier.advance (key : α → κ) (next : α → List α) : Nat → Frontier α κ → Frontier α κ
  | 0, st => st
  | n + 1, st =>
    match st.queue with
    | [] => st
    | a :: rest =>
      let new := fresh key st.visited (next a)
      advance key next n
        { visited := new.map key ++ st.visited
          result := st.result ++ new
          queue := rest ++ new }

/-- What the loop leaves true of a search from `f`. Marked are `f` and what was
    found, and whatever of it is not queued has had its successors marked. -/
structure Exploring (key : α → κ) (next : α → List α) (f : α) (st : Frontier α κ) : Prop where
  marks : ∀ k, k ∈ st.visited ↔ k = key f ∨ k ∈ st.result.map key
  reached : ∀ a ∈ st.result, ReflTransGen (fun a b => b ∈ next a) f a
  queued : ∀ a ∈ st.queue, a = f ∨ a ∈ st.result
  done : ∀ a, a = f ∨ a ∈ st.result → a ∉ st.queue → ∀ b ∈ next a, key b ∈ st.visited
  nodup : (st.result.map key).Nodup

section

variable {key : α → κ} {next : α → List α} {f : α} {st : Frontier α κ}

omit [DecidableEq κ] in
/-- How a search starts: `f` is marked and queued, and may be a result. -/
theorem Exploring.start (result : List α) (h : ∀ a ∈ result, a = f)
    (hnodup : (result.map key).Nodup) :
    Exploring key next f { visited := [key f], result := result, queue := [f] } where
  marks := by
    intro k
    rw [mem_singleton]
    refine ⟨.inl, fun hk => hk.elim id fun hk => ?_⟩
    rcases mem_map.mp hk with ⟨a, ha, rfl⟩
    rw [h a ha]
  reached := fun a ha => h a ha ▸ .refl
  queued := fun a ha => .inl (mem_singleton.mp ha)
  done := by
    rintro a ha hq
    exact absurd (mem_singleton.mpr (ha.elim id (h a))) hq
  nodup := hnodup

/-- One turn of the loop, for a value `a` at the head of the queue. -/
theorem Exploring.step (h : Exploring key next f st) {a : α} {rest : List α}
    (hq : st.queue = a :: rest) :
    Exploring key next f
      { visited := (fresh key st.visited (next a)).map key ++ st.visited
        result := st.result ++ fresh key st.visited (next a)
        queue := rest ++ fresh key st.visited (next a) } where
  marks := by
    intro k
    simp only [mem_append, map_append, h.marks k]
    tauto
  reached := by
    intro b hb
    rcases mem_append.mp hb with hb | hb
    · exact h.reached b hb
    · have hab : b ∈ next a := (mem_fresh hb).1
      rcases h.queued a (by rw [hq]; exact mem_cons_self) with rfl | ha
      · exact .single hab
      · exact .tail (h.reached a ha) hab
  queued := by
    intro b hb
    rcases mem_append.mp hb with hb | hb
    · rcases h.queued b (by rw [hq]; exact mem_cons_of_mem _ hb) with hf | hr
      · exact .inl hf
      · exact .inr (mem_append_left _ hr)
    · exact .inr (mem_append_right _ hb)
  done := by
    intro b hb hbq c hc
    rw [mem_append, not_or] at hbq
    rw [mem_append]
    by_cases hba : b = a
    · rw [hba] at hc
      exact (key_mem_fresh _ hc).symm
    · have hold : b = f ∨ b ∈ st.result := by
        rcases hb with hb | hb
        · exact .inl hb
        · rcases mem_append.mp hb with hb | hb
          · exact .inr hb
          · exact absurd hb hbq.2
      refine .inr (h.done b hold ?_ c hc)
      rw [hq, mem_cons, not_or]
      exact ⟨hba, hbq.1⟩
  nodup := by
    rw [map_append, nodup_append]
    refine ⟨h.nodup, nodup_fresh _ _, ?_⟩
    intro k hk k' hk' hkk
    rcases mem_map.mp hk' with ⟨b, hb, rfl⟩
    exact (mem_fresh hb).2 ((h.marks _).mpr (.inr (hkk ▸ hk)))

theorem Frontier.result_subset : ∀ (n : Nat) (st : Frontier α κ), ∀ a ∈ st.result,
    a ∈ (st.advance key next n).result
  | 0, _, _, ha => ha
  | n + 1, st, a, ha => by
    unfold Frontier.advance
    split
    · exact ha
    · exact Frontier.result_subset n _ a (mem_append_left _ ha)

/-- Once the queue is empty, more fuel changes nothing. -/
theorem Frontier.advance_eq_of_le : ∀ {n m : Nat} {st : Frontier α κ}, n ≤ m →
    (st.advance key next n).queue = [] → st.advance key next m = st.advance key next n
  | 0, 0, _, _, _ => rfl
  | 0, m + 1, st, _, hq => by
    show st.advance key next (m + 1) = st
    replace hq : st.queue = [] := hq
    unfold Frontier.advance
    rw [hq]
  | n + 1, 0, _, h, _ => absurd h (by omega)
  | n + 1, m + 1, st, h, hq => by
    unfold Frontier.advance at hq ⊢
    split
    · rfl
    · rename_i a rest hqueue
      rw [hqueue] at hq
      exact Frontier.advance_eq_of_le (Nat.le_of_succ_le_succ h) hq

/-- A key that is marked and not found is never found. -/
theorem Frontier.not_mem_result : ∀ (n : Nat) {st : Frontier α κ} {k : κ}, k ∈ st.visited →
    k ∉ st.result.map key → k ∉ (st.advance key next n).result.map key
  | 0, _, _, _, hr => hr
  | n + 1, st, k, hv, hr => by
    unfold Frontier.advance
    split
    · exact hr
    · refine Frontier.not_mem_result n (mem_append_right _ hv) ?_
      rw [map_append, mem_append, not_or]
      refine ⟨hr, ?_⟩
      intro hk
      rcases mem_map.mp hk with ⟨b, hb, rfl⟩
      exact (mem_fresh hb).2 hv

/-- `U` bounds the result. -/
theorem Exploring.length_le {U : Finset κ}
    (hU : ∀ a, ReflTransGen (fun a b => b ∈ next a) f a → key a ∈ U)
    (h : Exploring key next f st) : st.result.length ≤ U.card := by
  rw [← length_map (f := key), ← toFinset_card_of_nodup h.nodup]
  refine Finset.card_le_card fun k hk => ?_
  rcases mem_map.mp (mem_toFinset.mp hk) with ⟨b, hb, rfl⟩
  exact hU b (h.reached b hb)

/-- The loop empties the queue: every turn takes one value off it, and puts on it
    only what it adds to the result. -/
theorem Exploring.advance {U : Finset κ}
    (hU : ∀ a, ReflTransGen (fun a b => b ∈ next a) f a → key a ∈ U) :
    ∀ {n : Nat} {st : Frontier α κ}, Exploring key next f st →
      st.queue.length + (U.card - st.result.length) ≤ n →
      Exploring key next f (Frontier.advance key next n st) ∧
        (Frontier.advance key next n st).queue = []
  | 0, st, h, hn => by
    refine ⟨h, length_eq_zero_iff.mp ?_⟩
    show st.queue.length = 0
    omega
  | n + 1, st, h, hn => by
    unfold Frontier.advance
    split
    · rename_i hq
      exact ⟨h, hq⟩
    · rename_i a rest hq
      have hstep := h.step hq
      have hcard := hstep.length_le hU
      refine Exploring.advance hU hstep ?_
      rw [hq] at hn
      simp only [length_cons, length_append] at hn hcard ⊢
      omega

/-- What a search has found when it starts is queued. -/
theorem Exploring.ends {U : Finset κ}
    (hU : ∀ a, ReflTransGen (fun a b => b ∈ next a) f a → key a ∈ U)
    (h : Exploring key next f st) (hq : st.queue = st.result) {n : Nat} (hn : U.card ≤ n) :
    Exploring key next f (st.advance key next n) ∧ (st.advance key next n).queue = [] := by
  have hlen := h.length_le hU
  refine Exploring.advance hU h ?_
  rw [hq]
  omega

omit [DecidableEq κ] in
/-- Once the queue is empty, everything that can be reached is found. Keys tell
    apart what can be reached. -/
theorem Exploring.complete (h : Exploring key next f st) (hq : st.queue = [])
    (hinj : ∀ a b, ReflTransGen (fun a b => b ∈ next a) f a →
      ReflTransGen (fun a b => b ∈ next a) f b → key a = key b → a = b) {a : α}
    (ha : ReflTransGen (fun a b => b ∈ next a) f a) : a = f ∨ a ∈ st.result := by
  induction ha with
  | refl => exact .inl rfl
  | tail hfb hbc ih =>
    rename_i b c
    have hc := ReflTransGen.tail hfb hbc
    have hmark := h.done b ih (by rw [hq]; simp) c hbc
    rcases (h.marks _).mp hmark with hk | hk
    · exact .inl (hinj c f hc .refl hk)
    · rcases mem_map.mp hk with ⟨d, hd, hkd⟩
      rw [← hinj d c (h.reached d hd) hc hkd]
      exact .inr hd

omit [DecidableEq κ] in
/-- The successors of `f` and of what was found are all that a step or more leads to. -/
theorem Exploring.mem_successors (h : Exploring key next f st) (hq : st.queue = [])
    (hkey : Function.Injective key) (a : α) :
    a ∈ (f :: st.result).flatMap next ↔ TransGen (fun a b => b ∈ next a) f a := by
  rw [mem_flatMap, TransGen.tail'_iff]
  refine exists_congr fun b => and_congr_left' (mem_cons.trans ⟨fun hb => ?_, fun hb => ?_⟩)
  · exact hb.elim (· ▸ .refl) (h.reached b)
  · exact h.complete hq (fun _ _ _ _ heq => hkey heq) hb

end

end Lib

end GoRdf
