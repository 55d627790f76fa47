import Mathlib.Data.Finset.Card
import Mathlib.Data.List.AList
import Mathlib.Data.List.Dedup
import Mathlib.Logic.Function.Iterate
import Mathlib.Logic.Relation

/-!
# Union-Find

Disjoint sets with path halving and union by rank, over keys of any type. Ties of
rank are broken by an order on keys, of which nothing is needed.

Ranks rise along the parents, so a key leads to one root, and the keys above it
are the steps a search needs at most. Halving a path makes a key skip its parent
and changes no root. Joining two roots makes one of two classes. The classes are
therefore those that the joined pairs generate.

## Main definitions

* `UnionFind`: Parents and ranks of the keys that were added.
* `findKey`, `union`, `classes`: The operations.
* `Ranked`: Ranks rise along parents.
* `Leads`: The root a key leads to.
* `Roots`: A function that gives every key its root.

## Theorems

* `findLoop_spec`, `findKey_spec`: The search returns the root and changes none.
* `find_union_iff`: What joining two keys does to the classes.
* `Generated.union`, `Generated.findKey`: The classes are those the joined pairs generate.
* `groupKeys_spec`: The classes that are found while the searches shorten paths.
* `mem_classes`, `Generated.listsClasses`: The classes with more than one member.
* `eqvGen_map_iff`, `ListsClasses.filterMap`: From classes of names to classes of what they name.
-/

namespace GoRdf

open List Function

namespace Lib

open Relation

/-- The keys that were added, with their parents and ranks. Another key is its own
    parent. -/
structure UnionFind (κ : Type) where
  members : List κ
  parent : κ → κ
  rank : κ → Nat

/-- What related elements agree on, the elements of one class agree on. -/
theorem eqvGen_congr {α : Type} {r : α → α → Prop} {P : α → Prop}
    (h : ∀ a b, r a b → (P a ↔ P b)) {a b : α} (hab : EqvGen r a b) : P a ↔ P b :=
  iff_of_eq (congrArg (Quot.lift P fun a b hr => propext (h a b hr)) (Quot.eqvGen_sound hab))

theorem one_lt_length_of_mem {α : Type} {l : List α} {a b : α} (hne : a ≠ b) (ha : a ∈ l)
    (hb : b ∈ l) : 1 < l.length := by
  match l with
  | [x] => exact absurd ((mem_singleton.mp ha).trans (mem_singleton.mp hb).symm) hne
  | x :: y :: l => simp

/-- The lists are the classes of a relation that have more than one member, each once. -/
structure ListsClasses {α : Type} (r : α → α → Prop) (cs : List (List α)) : Prop where
  several : ∀ c ∈ cs, c.Nodup ∧ 1 < c.length
  mem_iff : ∀ c ∈ cs, ∀ a ∈ c, ∀ b, b ∈ c ↔ r a b
  complete : ∀ a b, a ≠ b → r a b → ∃ c ∈ cs, a ∈ c
  once : cs.Pairwise List.Disjoint

/-! ## Classes under names -/

section

variable {α β : Type} {f : α → β} {T : Set α} {r : α → α → Prop}

theorem eqvGen_image {a b : α} (h : EqvGen r a b) : EqvGen (Relation.Map r f f) (f a) (f b) := by
  induction h with
  | rel a b hab => exact .rel _ _ ⟨a, b, hab, rfl, rfl⟩
  | refl a => exact .refl _
  | symm a b _ ih => exact ih.symm _ _
  | trans a b c _ _ ih ih' => exact ih.trans _ _ _ ih'

variable (hf : T.InjOn f) (hr : ∀ a b, r a b → a ∈ T ∧ b ∈ T)

include hr

/-- Elements that are related are equal or both of the set. -/
theorem mem_of_eqvGen {a b : α} (h : EqvGen r a b) : a = b ∨ a ∈ T ∧ b ∈ T := by
  induction h with
  | rel a b hab => exact .inr (hr a b hab)
  | refl a => exact .inl rfl
  | symm a b _ ih => exact ih.imp Eq.symm And.symm
  | trans a b c _ _ ih ih' =>
    rcases ih with rfl | ih
    · exact ih'
    · rcases ih' with rfl | ih'
      · exact .inr ih
      · exact .inr ⟨ih.1, ih'.2⟩

include hf

/-- Names that are related are equal or name related elements. -/
theorem exists_of_eqvGen_map {x y : β} (h : EqvGen (Relation.Map r f f) x y) :
    x = y ∨ ∃ a ∈ T, ∃ b ∈ T, f a = x ∧ f b = y ∧ EqvGen r a b := by
  induction h with
  | rel x y hxy =>
    obtain ⟨a, b, hab, rfl, rfl⟩ := hxy
    exact .inr ⟨a, (hr a b hab).1, b, (hr a b hab).2, rfl, rfl, .rel _ _ hab⟩
  | refl x => exact .inl rfl
  | symm x y _ ih =>
    rcases ih with rfl | ⟨a, ha, b, hb, hx, hy, hab⟩
    · exact .inl rfl
    · exact .inr ⟨b, hb, a, ha, hy, hx, hab.symm _ _⟩
  | trans x y z _ _ ih ih' =>
    rcases ih with rfl | ⟨a, ha, b, hb, hx, hy, hab⟩
    · exact ih'
    · rcases ih' with rfl | ⟨b', hb', c, hc, hy', hz, hbc⟩
      · exact .inr ⟨a, ha, b, hb, hx, hy, hab⟩
      · -- The element in the middle is one, as its name is.
        rw [hf hb' hb (hy'.trans hy.symm)] at hbc
        exact .inr ⟨a, ha, c, hc, hx, hz, hab.trans _ _ _ hbc⟩

/-- Elements of a set that names tell apart are related as their names are. -/
theorem eqvGen_map_iff {a b : α} (ha : a ∈ T) (hb : b ∈ T) :
    EqvGen (Relation.Map r f f) (f a) (f b) ↔ EqvGen r a b := by
  refine ⟨fun h => ?_, eqvGen_image⟩
  rcases exists_of_eqvGen_map hf hr h with heq | ⟨a', ha', b', hb', hfa, hfb, hab⟩
  · rw [hf ha hb heq]
    exact .refl b
  · rwa [← hf ha' ha hfa, ← hf hb' hb hfb]

/-- Classes of names, each name replaced by what it names. -/
theorem ListsClasses.filterMap {cs : List (List β)} {g : β → Option α}
    (h : ListsClasses (EqvGen (Relation.Map r f f)) cs)
    (hg : ∀ c ∈ cs, ∀ x ∈ c, ∃ a ∈ T, g x = some a ∧ f a = x) :
    ListsClasses (EqvGen r) (cs.map fun c => c.filterMap g) := by
  have hmem : ∀ c ∈ cs, ∀ a, a ∈ c.filterMap g ↔ a ∈ T ∧ f a ∈ c := by
    intro c hc a
    rw [mem_filterMap]
    constructor
    · rintro ⟨x, hx, hxa⟩
      obtain ⟨a', ha', hga, rfl⟩ := hg c hc x hx
      rw [hga, Option.some.injEq] at hxa
      exact hxa ▸ ⟨ha', hx⟩
    · rintro ⟨ha, hx⟩
      obtain ⟨a', ha', hga, hfa⟩ := hg c hc _ hx
      exact ⟨f a, hx, hf ha' ha hfa ▸ hga⟩
  have hnames : ∀ c ∈ cs, (c.filterMap g).map f = c := by
    intro c hc
    rw [map_filterMap, filterMap_congr (g := some) fun x hx => ?_, filterMap_some]
    obtain ⟨a, -, hga, hfa⟩ := hg c hc x hx
    rw [hga, Option.map_some, hfa]
  refine ⟨forall_mem_map.mpr fun c hc => ⟨?_, ?_⟩, forall_mem_map.mpr fun c hc a ha b => ?_,
    fun a b hne hab => ?_, ?_⟩
  · exact .of_map f (by rw [hnames c hc]; exact (h.several c hc).1)
  · rw [← length_map f, hnames c hc]
    exact (h.several c hc).2
  · rw [hmem c hc] at ha ⊢
    rw [h.mem_iff c hc _ ha.2]
    constructor
    · rintro ⟨hb, hab⟩
      exact (eqvGen_map_iff hf hr ha.1 hb).mp hab
    · intro hab
      refine ⟨?_, eqvGen_image hab⟩
      rcases mem_of_eqvGen hr hab with rfl | hb
      · exact ha.1
      · exact hb.2
  · obtain ⟨ha, hb⟩ := (mem_of_eqvGen hr hab).resolve_left hne
    obtain ⟨c, hc, hac⟩ := h.complete _ _ (fun heq => hne (hf ha hb heq)) (eqvGen_image hab)
    exact ⟨_, mem_map_of_mem hc, (hmem c hc a).mpr ⟨ha, hac⟩⟩
  · refine pairwise_map.mpr (h.once.imp_of_mem fun {c c'} hc hc' hdisj a ha ha' => ?_)
    exact hdisj ((hmem c hc a).mp ha).2 ((hmem c' hc' a).mp ha').2

end

namespace UnionFind

variable {κ : Type} [DecidableEq κ]

/-- No keys. -/
def empty : UnionFind κ :=
  ⟨[], id, fun _ => 0⟩

/-- Makes sure that a key is there. -/
def add (uf : UnionFind κ) (k : κ) : UnionFind κ :=
  if k ∈ uf.members then uf
  else
    { members := uf.members ++ [k]
      parent := update uf.parent k k
      rank := update uf.rank k 0 }

/-- Follows the parents to a root, and halves the path on the way. -/
def findLoop : Nat → (κ → κ) → κ → κ × (κ → κ)
  | 0, p, k => (k, p)
  | n + 1, p, k =>
    if p k = k then (k, p)
    else
      let halved := update p k (p (p k))
      findLoop n halved (halved k)

/-- The root of a key. -/
def findKey (uf : UnionFind κ) (k : κ) : κ × UnionFind κ :=
  if k ∈ uf.members then
    let r := findLoop uf.members.length uf.parent k
    (r.1, { uf with parent := r.2 })
  else (k, uf)

/-- The root of a key, without what the search changes. -/
def find (uf : UnionFind κ) (k : κ) : κ :=
  (uf.findKey k).1

/-- Joins two roots by rank. -/
def join (before : κ → κ → Bool) (uf : UnionFind κ) (a b : κ) : UnionFind κ :=
  if uf.rank a < uf.rank b then { uf with parent := update uf.parent a b }
  else if uf.rank b < uf.rank a then { uf with parent := update uf.parent b a }
  else if before a b then
    { uf with
      parent := update uf.parent b a
      rank := update uf.rank a (uf.rank a + 1) }
  else
    { uf with
      parent := update uf.parent a b
      rank := update uf.rank b (uf.rank b + 1) }

/-- Joins the classes of two keys. -/
def union (before : κ → κ → Bool) (uf : UnionFind κ) (a b : κ) : UnionFind κ :=
  let ra := ((uf.add a).add b).findKey a
  let rb := ra.2.findKey b
  if ra.1 = rb.1 then rb.2 else rb.2.join before ra.1 rb.1

/-- The classes with more than one member. Looking up a key changes no root, so all
    keys are looked up in the structure as it is. -/
def classes (uf : UnionFind κ) : List (List κ) :=
  ((uf.members.map uf.find).dedup.map fun r => uf.members.filter fun k => uf.find k = r).filter
    fun c => 1 < c.length

/-- The members for each root, as they are found when the keys are looked up one after the
    other, and the structure that the searches leave. -/
def groupKeys (uf : UnionFind κ) (keys : List κ) : UnionFind κ × AList fun _ : κ => List κ :=
  keys.foldl (fun st k =>
    let r := st.1.findKey k
    (r.2, st.2.insert r.1 ((st.2.lookup r.1).getD [] ++ [k]))) (uf, ∅)

/-- The groups with more than one member. -/
def keyClasses (uf : UnionFind κ) (keys : List κ) : List (List κ) :=
  ((uf.groupKeys keys).2.entries.map Sigma.snd).filter fun c => 1 < c.length

/-- The structure after joining pairs one after the other. -/
def ofPairs (before : κ → κ → Bool) (pairs : List (κ × κ)) : UnionFind κ :=
  pairs.foldl (fun uf p => uf.union before p.1 p.2) empty

/-! ## Roots -/

section

variable {members : List κ} {p f : κ → κ} {rank : κ → Nat} {k : κ}

/-- Parents of members are members, and ranks rise along parents. -/
structure Ranked (members : List κ) (p : κ → κ) (rank : κ → Nat) : Prop where
  outside : ∀ k, k ∉ members → p k = k
  inside : ∀ k ∈ members, p k ∈ members
  rises : ∀ k, p k ≠ k → rank k < rank (p k)

/-- Following the parents of `k` ends at `r`. -/
def Leads (p : κ → κ) (k r : κ) : Prop :=
  (∃ n, p^[n] k = r) ∧ p r = r

/-- `f` gives every key its root. -/
structure Roots (p f : κ → κ) : Prop where
  parent : ∀ k, f (p k) = f k
  root : ∀ k, p k = k → f k = k

/-- The number of members with a higher rank. -/
def above (members : List κ) (rank : κ → Nat) (k : κ) : Nat :=
  (members.toFinset.filter fun x => rank k < rank x).card

theorem above_le (members : List κ) (rank : κ → Nat) (k : κ) :
    above members rank k ≤ members.length :=
  (Finset.card_filter_le _ _).trans (toFinset_card_le _)

theorem halve_cases (k x : κ) :
    update p k (p (p k)) x = p x ∨ update p k (p (p k)) x = p (p x) := by
  by_cases hxk : x = k
  · subst hxk
    exact .inr (update_self ..)
  · exact .inl (update_of_ne hxk ..)

section

variable (h : Ranked members p rank)

include h

theorem Ranked.mem (hk : p k ≠ k) : k ∈ members := by
  by_contra hout
  exact hk (h.outside k hout)

theorem above_parent_lt (hk : p k ≠ k) : above members rank (p k) < above members rank k := by
  have hrise := h.rises k hk
  refine Finset.card_lt_card ⟨?_, ?_⟩
  · intro x hx
    rw [Finset.mem_filter] at hx ⊢
    exact ⟨hx.1, hrise.trans hx.2⟩
  · intro hsubset
    have hparent : p k ∈ members.toFinset.filter fun x => rank k < rank x := by
      rw [Finset.mem_filter, mem_toFinset]
      exact ⟨h.inside k (h.mem hk), hrise⟩
    exact absurd (Finset.mem_filter.mp (hsubset hparent)).2 (lt_irrefl _)

/-- Following the parents ends within as many steps as there are members above. -/
theorem Ranked.iterate_root {n : Nat} (hn : above members rank k ≤ n) :
    p (p^[n] k) = p^[n] k := by
  induction n generalizing k with
  | zero =>
    by_contra hne
    exact absurd ((above_parent_lt h hne).trans_le hn) (Nat.not_lt_zero _)
  | succ n ih =>
    by_cases hroot : p k = k
    · rw [iterate_fixed hroot, hroot]
    · have hlt := above_parent_lt h hroot
      exact ih (by omega)

theorem Ranked.exists_leads (k : κ) : ∃ r, Leads p k r :=
  ⟨_, ⟨members.length, rfl⟩, h.iterate_root (above_le ..)⟩

theorem Ranked.roots : Roots p p^[members.length] where
  parent := by
    intro k
    rw [← iterate_succ_apply, iterate_succ_apply', h.iterate_root (above_le ..)]
  root := fun k hk => iterate_fixed hk _

/-! ## Halving a path -/

/-- Keys may skip their parents. -/
theorem Ranked.skip {q : κ → κ} (hq : ∀ x, q x = p x ∨ q x = p (p x)) : Ranked members q rank where
  outside := by
    intro x hx
    rcases hq x with heq | heq
    · rw [heq, h.outside x hx]
    · rw [heq, h.outside x hx, h.outside x hx]
  inside := by
    intro x hx
    rcases hq x with heq | heq
    · exact heq ▸ h.inside x hx
    · exact heq ▸ h.inside _ (h.inside x hx)
  rises := by
    intro x hx
    by_cases hroot : p x = x
    · rcases hq x with heq | heq <;> simp [heq, hroot] at hx
    · have hlow := h.rises x hroot
      rcases hq x with heq | heq <;> rw [heq]
      · exact hlow
      · by_cases hgrand : p (p x) = p x
        · rwa [hgrand]
        · exact hlow.trans (h.rises _ hgrand)

/-- Then every key keeps its root. No key is its own grandparent but a root. -/
theorem Roots.skip (hf : Roots p f) {q : κ → κ} (hq : ∀ x, q x = p x ∨ q x = p (p x)) :
    Roots q f where
  parent := by
    intro x
    rcases hq x with heq | heq <;> rw [heq]
    · exact hf.parent x
    · rw [hf.parent, hf.parent]
  root := by
    intro x hx
    refine hf.root x ?_
    by_contra hne
    have hlow := h.rises x hne
    rcases hq x with heq | heq <;> rw [heq] at hx
    · exact hne hx
    · have hhigh := h.rises (p x) (by rw [hx]; exact Ne.symm hne)
      rw [hx] at hhigh
      omega

end

/-- The search returns the root, and changes none. -/
theorem findLoop_spec : ∀ (n : Nat) {p : κ → κ} {k : κ}, Ranked members p rank → Roots p f →
    above members rank k ≤ n →
    (findLoop n p k).1 = f k ∧ Ranked members (findLoop n p k).2 rank ∧ Roots (findLoop n p k).2 f
  | 0, p, k, h, hf, hn => ⟨(hf.root k (h.iterate_root hn)).symm, h, hf⟩
  | n + 1, p, k, h, hf, hn => by
    rw [findLoop]
    by_cases hroot : p k = k
    · rw [if_pos hroot]
      exact ⟨(hf.root k hroot).symm, h, hf⟩
    · rw [if_neg hroot]
      have hlow := above_parent_lt h hroot
      have hgrand : above members rank (p (p k)) ≤ n := by
        by_cases hsame : p (p k) = p k
        · rw [hsame]
          omega
        · have hlower := above_parent_lt h hsame
          omega
      dsimp only
      rw [update_self]
      have hrest := findLoop_spec n (h.skip (halve_cases k)) (hf.skip h (halve_cases k)) hgrand
      rw [hf.parent, hf.parent] at hrest
      exact hrest

/-! ## Joining two roots -/

section

variable {gone keep : κ} (hgone : p gone = gone) (hkeep : p keep = keep) (hne : gone ≠ keep)

include hgone hkeep hne

/-- What led to the root that is gone leads to the one that is kept. -/
theorem Roots.link (hf : Roots p f) :
    Roots (update p gone keep) fun x => if f x = gone then keep else f x where
  parent := by
    intro x
    by_cases hx : x = gone
    · rw [hx, update_self, hf.root keep hkeep, hf.root gone hgone, if_neg hne.symm, if_pos rfl]
    · rw [update_of_ne hx, hf.parent]
  root := by
    intro x hx
    have hxg : x ≠ gone := by
      rintro rfl
      rw [update_self] at hx
      exact hne hx.symm
    rw [update_of_ne hxg] at hx
    rw [hf.root x hx, if_neg hxg]

omit hgone in
theorem Ranked.link (h : Ranked members p rank) {rank' : κ → Nat}
    (hother : ∀ x, x ≠ keep → rank' x = rank x) (hmore : rank keep ≤ rank' keep)
    (hrise : rank gone < rank' keep) (hg : gone ∈ members) (hk : keep ∈ members) :
    Ranked members (update p gone keep) rank' where
  outside := by
    intro x hx
    rw [update_of_ne, h.outside x hx]
    rintro rfl
    exact hx hg
  inside := by
    intro x hx
    by_cases hxg : x = gone
    · rw [hxg, update_self]
      exact hk
    · rw [update_of_ne hxg]
      exact h.inside x hx
  rises := by
    intro x hx
    by_cases hxg : x = gone
    · rw [hxg, update_self, hother gone hne]
      exact hrise
    · rw [update_of_ne hxg] at hx ⊢
      have hxk : x ≠ keep := by
        rintro rfl
        exact hx hkeep
      have hlow := h.rises x hx
      rw [hother x hxk]
      by_cases hpk : p x = keep
      · rw [hpk] at hlow ⊢
        omega
      · rw [hother _ hpk]
        exact hlow

end

end

/-! ## The operations -/

/-- The structure is one the operations make. -/
def WellRanked (uf : UnionFind κ) : Prop :=
  Ranked uf.members uf.parent uf.rank

variable {uf : UnionFind κ} {before : κ → κ → Bool}

omit [DecidableEq κ] in
theorem wellRanked_empty : WellRanked (empty : UnionFind κ) :=
  ⟨fun _ _ => rfl, nofun, fun _ h => absurd rfl h⟩

theorem mem_members_add (k x : κ) : x ∈ (uf.add k).members ↔ x ∈ uf.members ∨ x = k := by
  unfold add
  split_ifs with hk
  · exact ⟨.inl, fun h => h.elim id fun heq => heq ▸ hk⟩
  · simp

theorem members_findKey (k : κ) : (uf.findKey k).2.members = uf.members := by
  unfold findKey
  split_ifs <;> rfl

theorem members_join (a b : κ) : (uf.join before a b).members = uf.members := by
  unfold join
  split_ifs <;> rfl

section

variable (h : WellRanked uf)

include h

theorem findKey_roots {f : κ → κ} (hf : Roots uf.parent f) (k : κ) :
    uf.find k = f k ∧ WellRanked (uf.findKey k).2 ∧ Roots (uf.findKey k).2.parent f := by
  unfold find findKey
  split_ifs with hk
  · exact findLoop_spec uf.members.length h hf (above_le ..)
  · exact ⟨(hf.root k (h.outside k hk)).symm, h, hf⟩

theorem find_eq {f : κ → κ} (hf : Roots uf.parent f) : uf.find = f :=
  funext fun k => (findKey_roots h hf k).1

theorem roots_find : Roots uf.parent uf.find := by
  rw [find_eq h h.roots]
  exact h.roots

theorem parent_find (k : κ) : uf.parent (uf.find k) = uf.find k := by
  rw [find_eq h h.roots]
  exact h.iterate_root (above_le ..)

theorem find_mem {k : κ} (hk : k ∈ uf.members) : uf.find k ∈ uf.members := by
  rw [find_eq h h.roots]
  exact Set.MapsTo.iterate (s := {k | k ∈ uf.members}) h.inside _ hk

theorem findKey_spec (k : κ) :
    WellRanked (uf.findKey k).2 ∧ (uf.findKey k).2.find = uf.find := by
  rcases findKey_roots h (roots_find h) k with ⟨-, h', hf⟩
  exact ⟨h', find_eq h' hf⟩

theorem add_spec (k : κ) :
    WellRanked (uf.add k) ∧ (uf.add k).find = uf.find ∧ k ∈ (uf.add k).members ∧
      ∀ x ∈ uf.members, x ∈ (uf.add k).members := by
  unfold add
  split_ifs with hk
  · exact ⟨h, rfl, hk, fun _ hx => hx⟩
  · have hparent : update uf.parent k k = uf.parent := by
      rw [update_eq_self_iff]
      exact (h.outside k hk).symm
    rw [hparent]
    have hranked : WellRanked ⟨uf.members ++ [k], uf.parent, update uf.rank k 0⟩ := by
      refine ⟨fun x hx => h.outside x fun hmem => hx (mem_append_left _ hmem), ?_, ?_⟩
      · intro x hx
        rcases mem_append.mp hx with hx | hx
        · exact mem_append_left _ (h.inside x hx)
        · rw [mem_singleton.mp hx, h.outside k hk]
          exact mem_append_right _ (mem_singleton_self k)
      · intro x hx
        have hmem := h.mem hx
        have hxk : x ≠ k := fun heq => hk (heq ▸ hmem)
        have hpk : uf.parent x ≠ k := fun heq => hk (heq ▸ h.inside x hmem)
        dsimp only
        rw [update_of_ne hxk, update_of_ne hpk]
        exact h.rises x hx
    exact ⟨hranked, find_eq hranked (roots_find h), by simp, fun x hx => by simp [hx]⟩

variable (before) in
/-- One of the roots is gone, and what led to it leads to the other. -/
theorem join_spec {a b : κ} (ha : uf.parent a = a) (hb : uf.parent b = b) (hab : a ≠ b)
    (hma : a ∈ uf.members) (hmb : b ∈ uf.members) :
    WellRanked (uf.join before a b) ∧ ∃ gone keep,
      (gone = a ∧ keep = b ∨ gone = b ∧ keep = a) ∧
      Roots (uf.join before a b).parent fun x => if uf.find x = gone then keep else uf.find x := by
  have hleft := (roots_find h).link ha hb hab
  have hright := (roots_find h).link hb ha hab.symm
  unfold join
  split_ifs with hlt hgt htie
  · exact ⟨h.link hb hab (fun _ _ => rfl) (le_refl _) hlt hma hmb, a, b, .inl ⟨rfl, rfl⟩, hleft⟩
  · exact ⟨h.link ha hab.symm (fun _ _ => rfl) (le_refl _) hgt hmb hma, b, a, .inr ⟨rfl, rfl⟩,
      hright⟩
  · refine ⟨h.link ha hab.symm (fun x hx => update_of_ne hx _ _) ?_ ?_ hmb hma, b, a,
      .inr ⟨rfl, rfl⟩, hright⟩
    · simp
    · simp
      omega
  · refine ⟨h.link hb hab (fun x hx => update_of_ne hx _ _) ?_ ?_ hma hmb, a, b,
      .inl ⟨rfl, rfl⟩, hleft⟩
    · simp
    · simp
      omega

variable (before) in
/-- After a union, the roots of both keys are one root. -/
theorem union_spec (a b : κ) :
    WellRanked (uf.union before a b) ∧ ∃ gone keep,
      (gone = uf.find a ∧ keep = uf.find b ∨ gone = uf.find b ∧ keep = uf.find a) ∧
      ∀ x, (uf.union before a b).find x = if uf.find x = gone then keep else uf.find x := by
  -- adding both keys and looking both up changes no root
  rcases add_spec h a with ⟨h₁, hf₁, ha, -⟩
  rcases add_spec h₁ b with ⟨h₂, hf₂, hb, hmore⟩
  rcases findKey_spec h₂ a with ⟨h₃, hf₃⟩
  rcases findKey_spec h₃ b with ⟨h₄, hf₄⟩
  rw [hf₁] at hf₂
  rw [hf₂] at hf₃
  rw [hf₃] at hf₄
  have hra : (((uf.add a).add b).findKey a).1 = uf.find a := congrFun hf₂ a
  have hrb : ((((uf.add a).add b).findKey a).2.findKey b).1 = uf.find b := congrFun hf₃ b
  have hmembers : ((((uf.add a).add b).findKey a).2.findKey b).2.members =
      ((uf.add a).add b).members := by
    rw [members_findKey, members_findKey]
  unfold union
  dsimp only
  rw [hra, hrb]
  set uf₄ := ((((uf.add a).add b).findKey a).2.findKey b).2
  have hroot : ∀ x, uf₄.parent (uf.find x) = uf.find x := hf₄ ▸ parent_find h₄
  have hmem : ∀ x ∈ ((uf.add a).add b).members, uf.find x ∈ uf₄.members := by
    rw [hmembers, ← hf₂]
    exact fun x => find_mem h₂
  split_ifs with hsame
  · refine ⟨h₄, _, _, .inl ⟨rfl, rfl⟩, fun x => ?_⟩
    rw [hf₄, ← hsame]
    split_ifs with hx
    · exact hx
    · rfl
  · rcases join_spec before h₄ (hroot a) (hroot b) hsame (hmem a (hmore a ha)) (hmem b hb)
      with ⟨h₅, gone, keep, hpair, hroots⟩
    rw [hf₄] at hroots
    exact ⟨h₅, gone, keep, hpair, congrFun (find_eq h₅ hroots)⟩

variable (before) in
/-- A union makes one class of two. -/
theorem find_union_iff (a b x y : κ) :
    (uf.union before a b).find x = (uf.union before a b).find y ↔
      uf.find x = uf.find y ∨ (uf.find x = uf.find a ∧ uf.find b = uf.find y) ∨
        (uf.find x = uf.find b ∧ uf.find a = uf.find y) := by
  rcases union_spec before h a b with ⟨-, gone, keep, hpair, hfind⟩
  rw [hfind y]
  rcases hpair with ⟨rfl, rfl⟩ | ⟨rfl, rfl⟩ <;> split_ifs <;> grind

end

/-- The structure is one the operations make, and its classes are those a relation
    generates. -/
structure Generated (uf : UnionFind κ) (r : κ → κ → Prop) : Prop where
  ranked : WellRanked uf
  find_iff : ∀ x y, uf.find x = uf.find y ↔ EqvGen r x y

theorem Generated.congr {uf : UnionFind κ} {r r' : κ → κ → Prop} (h : Generated uf r)
    (hrel : ∀ x y, r x y ↔ r' x y) : Generated uf r' :=
  funext₂ (fun x y => propext (hrel x y)) ▸ h

theorem generated_empty : Generated (empty : UnionFind κ) fun _ _ => False := by
  refine ⟨wellRanked_empty, fun x y => ⟨?_, fun hgen => ?_⟩⟩
  · rintro rfl
    exact .refl _
  · exact (eqvGen_congr (P := (x = ·)) (fun _ _ hr => hr.elim) hgen).mp rfl

section

variable {r : κ → κ → Prop} (h : Generated uf r)

include h

theorem Generated.findKey (k : κ) : Generated (uf.findKey k).2 r := by
  rcases findKey_spec h.ranked k with ⟨hranked, hfind⟩
  exact ⟨hranked, hfind ▸ h.find_iff⟩

variable (before) in
/-- A pair that is joined is related. -/
theorem Generated.union (a b : κ) :
    Generated (uf.union before a b) fun x y => r x y ∨ x = a ∧ y = b := by
  have hiff := find_union_iff before h.ranked a b
  refine ⟨(union_spec before h.ranked a b).1, fun x y => ?_⟩
  set uf' := uf.union before a b
  constructor
  · have hmore : ∀ {x y}, EqvGen r x y → EqvGen (fun x y => r x y ∨ x = a ∧ y = b) x y :=
      fun hgen => hgen.mono fun _ _ hr => .inl hr
    have hpair : EqvGen (fun x y => r x y ∨ x = a ∧ y = b) a b := .rel _ _ (.inr ⟨rfl, rfl⟩)
    rw [hiff, h.find_iff, h.find_iff, h.find_iff, h.find_iff, h.find_iff]
    rintro (hxy | ⟨hxa, hby⟩ | ⟨hxb, hay⟩)
    · exact hmore hxy
    · exact (hmore hxa).trans _ _ _ (hpair.trans _ _ _ (hmore hby))
    · exact (hmore hxb).trans _ _ _ ((hpair.symm _ _).trans _ _ _ (hmore hay))
  · intro hgen
    -- the keys of every pair have one root
    refine (eqvGen_congr (P := fun z => uf'.find x = uf'.find z) ?_ hgen).mp rfl
    intro c d hcd
    have hfind : uf'.find c = uf'.find d := by
      rw [hiff]
      rcases hcd with hr | ⟨rfl, rfl⟩
      · exact .inl ((h.find_iff c d).mpr (.rel _ _ hr))
      · exact .inr (.inl ⟨rfl, rfl⟩)
    rw [hfind]

end

variable (before) in
/-- The classes are those the pairs generate. -/
theorem generated_ofPairs (pairs : List (κ × κ)) :
    Generated (ofPairs before pairs) fun a b => (a, b) ∈ pairs := by
  induction pairs using List.reverseRecOn with
  | nil => simpa [ofPairs] using generated_empty
  | append_singleton pairs p ih =>
    have hstep := ih.union before p.1 p.2
    simpa [ofPairs, Prod.ext_iff] using hstep

theorem mem_of_find_eq (h : WellRanked uf) {x y : κ} (hne : x ≠ y) (hxy : uf.find x = uf.find y) :
    x ∈ uf.members := by
  have hself : ∀ z, z ∉ uf.members → uf.find z = z := fun z hz =>
    (roots_find h).root z (h.outside z hz)
  by_contra hx
  rw [hself x hx] at hxy
  by_cases hy : y ∈ uf.members
  · exact hx (hxy ▸ find_mem h hy)
  · exact hne (hxy.trans (hself y hy))

theorem nodup_add (h : uf.members.Nodup) (k : κ) : (uf.add k).members.Nodup := by
  unfold add
  split_ifs with hk
  · exact h
  · exact nodup_append.mpr ⟨h, nodup_singleton k, by
      rintro a ha b hb rfl
      exact hk (mem_singleton.mp hb ▸ ha)⟩

theorem nodup_union (h : uf.members.Nodup) (a b : κ) : (uf.union before a b).members.Nodup := by
  have hadd := nodup_add (nodup_add h a) b
  unfold union
  dsimp only
  split_ifs
  · rwa [members_findKey, members_findKey]
  · rwa [members_join, members_findKey, members_findKey]

theorem mem_members_union (a b x : κ) :
    x ∈ (uf.union before a b).members ↔ x ∈ ((uf.add a).add b).members := by
  unfold union
  dsimp only
  split_ifs
  · rw [members_findKey, members_findKey]
  · rw [members_join, members_findKey, members_findKey]

/-- Keys that are there are not added again. -/
theorem union_add_add (a b : κ) :
    ((uf.add a).add b).union before a b = uf.union before a b := by
  have ha : ((uf.add a).add b).add a = (uf.add a).add b :=
    if_pos (by simp [mem_members_add])
  have hb : ((uf.add a).add b).add b = (uf.add a).add b :=
    if_pos (by simp [mem_members_add])
  rw [union, ha, hb, ← union]

theorem nodup_ofPairs (pairs : List (κ × κ)) : (ofPairs before pairs).members.Nodup :=
  List.foldlRecOn (motive := fun uf : UnionFind κ => uf.members.Nodup) pairs _ nodup_nil
    fun _ h p _ => nodup_union h p.1 p.2

theorem nodup_of_mem_classes (h : uf.members.Nodup) {c : List κ} (hc : c ∈ uf.classes) :
    c.Nodup := by
  rcases mem_map.mp (mem_filter.mp hc).1 with ⟨r, -, rfl⟩
  exact h.filter _

/-- The members of one of the classes have one root. -/
theorem find_of_mem_classes {c : List κ} (hc : c ∈ uf.classes) {x y : κ} (hx : x ∈ c)
    (hy : y ∈ c) : uf.find x = uf.find y := by
  rcases mem_map.mp (mem_filter.mp hc).1 with ⟨r, -, rfl⟩
  simp only [mem_filter, decide_eq_true_eq] at hx hy
  exact hx.2.trans hy.2.symm

/-- One of the classes has all keys with the root of one of its members. -/
theorem mem_class_of_find {c : List κ} (hc : c ∈ uf.classes) {x y : κ} (hx : x ∈ c)
    (hy : y ∈ uf.members) (hxy : uf.find x = uf.find y) : y ∈ c := by
  rcases mem_map.mp (mem_filter.mp hc).1 with ⟨r, -, rfl⟩
  simp only [mem_filter, decide_eq_true_eq] at hx ⊢
  exact ⟨hy, hxy.symm.trans hx.2⟩

/-- Two keys stand in one of the classes when they have one root. -/
theorem mem_classes (h : WellRanked uf) {x y : κ} (hne : x ≠ y) :
    (∃ c ∈ uf.classes, x ∈ c ∧ y ∈ c) ↔ uf.find x = uf.find y := by
  constructor
  · rintro ⟨c, hc, hx, hy⟩
    exact find_of_mem_classes hc hx hy
  · intro hxy
    unfold classes
    simp only [mem_filter, mem_map, mem_dedup, decide_eq_true_eq]
    have hx := mem_of_find_eq h hne hxy
    have hy := mem_of_find_eq h hne.symm hxy.symm
    have hxc : x ∈ uf.members.filter fun k => uf.find k = uf.find x := by simp [hx]
    have hyc : y ∈ uf.members.filter fun k => uf.find k = uf.find x := by simp [hy, hxy]
    exact ⟨_, ⟨⟨_, ⟨x, hx, rfl⟩, rfl⟩, one_lt_length_of_mem hne hxc hyc⟩, hxc, hyc⟩

/-- The members for each root are those of the structure as it was. -/
theorem groupKeys_spec (h : WellRanked uf) (keys : List κ) :
    WellRanked (uf.groupKeys keys).1 ∧ (uf.groupKeys keys).1.find = uf.find ∧
      ∀ r, ((uf.groupKeys keys).2.lookup r).getD [] = keys.filter fun k => uf.find k = r := by
  induction keys using List.reverseRecOn with
  | nil => exact ⟨h, rfl, fun _ => rfl⟩
  | append_singleton keys k ih =>
    rcases ih with ⟨hranked, hfind, hgroups⟩
    have hstep : uf.groupKeys (keys ++ [k]) =
        (((uf.groupKeys keys).1.findKey k).2, (uf.groupKeys keys).2.insert (uf.find k)
          (((uf.groupKeys keys).2.lookup (uf.find k)).getD [] ++ [k])) := by
      rw [← hfind]
      simp [groupKeys, find]
    rw [hstep]
    rcases findKey_spec hranked k with ⟨hranked', hfind'⟩
    refine ⟨hranked', hfind'.trans hfind, fun r => ?_⟩
    by_cases hr : r = uf.find k
    · subst hr
      simp [hgroups]
    · rw [AList.lookup_insert_ne hr, hgroups]
      simp [Ne.symm hr]

section

variable (huf : WellRanked uf) {keys : List κ}

include huf

theorem eq_of_mem_groupKeys {e : Sigma fun _ : κ => List κ}
    (he : e ∈ (uf.groupKeys keys).2.entries) : e.2 = keys.filter fun k => uf.find k = e.1 := by
  have hlookup : (uf.groupKeys keys).2.lookup e.1 = some e.2 := AList.mem_lookup_iff.mpr he
  rw [← (groupKeys_spec huf keys).2.2, hlookup, Option.getD_some]

theorem mem_keyClasses {c : List κ} : c ∈ uf.keyClasses keys ↔
    1 < c.length ∧ ∃ r, c = keys.filter fun k => uf.find k = r := by
  unfold keyClasses
  rw [mem_filter, mem_map, decide_eq_true_eq, and_comm]
  refine and_congr_right fun hlen => ⟨?_, ?_⟩
  · rintro ⟨e, he, rfl⟩
    exact ⟨e.1, eq_of_mem_groupKeys huf he⟩
  · rintro ⟨r, hc⟩
    rw [← (groupKeys_spec huf keys).2.2] at hc
    cases hlookup : (uf.groupKeys keys).2.lookup r with
    | none => simp [hc, hlookup] at hlen
    | some c' =>
      rw [hlookup, Option.getD_some] at hc
      exact ⟨⟨r, c'⟩, AList.mem_lookup_iff.mp hlookup, hc.symm⟩

/-- The classes that are found are those of the structure. -/
theorem Generated.listsClasses {r : κ → κ → Prop} (hgen : uf.Generated r)
    (hnodup : uf.members.Nodup) (hkeys : keys.Perm uf.members) :
    ListsClasses (EqvGen r) (uf.keyClasses keys) where
  several := by
    intro c hc
    rcases (mem_keyClasses huf).mp hc with ⟨hlen, r, rfl⟩
    exact ⟨(hkeys.nodup_iff.mpr hnodup).filter _, hlen⟩
  mem_iff := by
    intro c hc a ha b
    rcases (mem_keyClasses huf).mp hc with ⟨-, r, rfl⟩
    simp only [mem_filter, decide_eq_true_eq] at ha ⊢
    rw [← hgen.find_iff, ha.2]
    refine ⟨fun hb => hb.2.symm, fun hb => ⟨?_, hb.symm⟩⟩
    by_cases hab : b = a
    · exact hab ▸ ha.1
    · exact hkeys.mem_iff.mpr (mem_of_find_eq huf hab (hb.symm.trans ha.2.symm))
  complete := by
    intro a b hne hab
    have hfind := (hgen.find_iff a b).mpr hab
    have ha := hkeys.mem_iff.mpr (mem_of_find_eq huf hne hfind)
    have hb := hkeys.mem_iff.mpr (mem_of_find_eq huf hne.symm hfind.symm)
    have hac : a ∈ keys.filter fun k => uf.find k = uf.find a := by simp [ha]
    have hbc : b ∈ keys.filter fun k => uf.find k = uf.find a := by simp [hb, hfind]
    exact ⟨_, (mem_keyClasses huf).mpr
      ⟨one_lt_length_of_mem hne hac hbc, uf.find a, rfl⟩, hac⟩
  once := by
    refine Pairwise.filter _ (pairwise_map.mpr ?_)
    refine (nodupKeys_iff_pairwise.mp (uf.groupKeys keys).2.nodupKeys).imp_of_mem ?_
    intro e e' he he' hne x hx hx'
    rw [eq_of_mem_groupKeys huf he, mem_filter, decide_eq_true_eq] at hx
    rw [eq_of_mem_groupKeys huf he', mem_filter, decide_eq_true_eq] at hx'
    exact hne (hx.2.symm.trans hx'.2)

end

end UnionFind

end Lib

end GoRdf
