import GoRdf.Lib.Descent
import Mathlib.Logic.Relation

/-!
# Depth-First Traversal

A recursive traversal that marks a node when it enters it, visits each of its
successors in turn and goes on from those it may enter. Successors are visited
every time they are met, marked or not; the caller's `visit` sees them all.

The recursion is bounded by fuel. Every nested call has marked one more node,
so as many units as there are nodes that can be entered are enough, and with
that many the traversal visits exactly what can be reached (`mem_walk_iff`).

## Main definitions

* `Walk`: The marks so far, and what the visitor has built.
* `walk`: The traversal from one node.
* `Enters`: One step the traversal may go on from.

## Theorems

* `walk_out`: What the visitor builds is a fold over the nodes met.
* `mem_walk_iff`: The nodes met are the successors of the nodes entered.
-/

namespace GoRdf

open List Relation

namespace Lib

variable {α κ σ : Type*}

/-- The state of a traversal: the marks, and what the visitor has built. -/
structure Walk (κ σ : Type*) where
  seen : List κ
  out : σ

/-! ## What is met -/

section

variable (key : α → κ) (next : α → List α) (enter : α → Bool)

/-- A step the traversal may go on from. -/
def Enters (a b : α) : Prop :=
  b ∈ next a ∧ enter b = true

/-- A traversal from `root` took `w` to `w'`: marks and meetings only grow, every
    newly marked node has had its successors met and, where allowed, entered,
    and whatever is newly met follows a node that can be reached from `root`. -/
structure Explored (root : α) (w w' : Walk κ (List α)) : Prop where
  seen : ∀ k ∈ w.seen, k ∈ w'.seen
  out : ∀ c ∈ w.out, c ∈ w'.out
  closed : ∀ b, key b ∈ w'.seen → key b ∉ w.seen → ∀ c ∈ next b,
    c ∈ w'.out ∧ (enter c = true → key c ∈ w'.seen)
  sound : ∀ c ∈ w'.out, c ∈ w.out ∨
    ∃ b, ReflTransGen (Enters next enter) root b ∧ c ∈ next b

variable {key next enter}

theorem Explored.refl (root : α) (w : Walk κ (List α)) : Explored key next enter root w w where
  seen := fun _ h => h
  out := fun _ h => h
  closed := fun _ h h' => absurd h h'
  sound := fun _ h => .inl h

theorem Explored.trans {root : α} {w w' w'' : Walk κ (List α)}
    (h : Explored key next enter root w w') (h' : Explored key next enter root w' w'') :
    Explored key next enter root w w'' where
  seen := fun k hk => h'.seen k (h.seen k hk)
  out := fun c hc => h'.out c (h.out c hc)
  closed := by
    intro b hb hnot c hc
    by_cases hmid : key b ∈ w'.seen
    · obtain ⟨hout, hseen⟩ := h.closed b hmid hnot c hc
      exact ⟨h'.out c hout, fun he => h'.seen _ (hseen he)⟩
    · exact h'.closed b hb hmid c hc
  sound := by
    intro c hc
    rcases h'.sound c hc with hc | hc
    · exact h.sound c hc
    · exact .inr hc

end

/-! ## The traversal -/

section

variable [DecidableEq κ] (key : α → κ) (next : α → List α) (enter : α → Bool)

/-- The traversal from `a`: nothing happens at a marked node. -/
def walk (visit : α → σ → σ) : Nat → α → Walk κ σ → Walk κ σ
  | 0, _, w => w
  | n + 1, a, w =>
    if key a ∈ w.seen then w
    else
      (next a).foldl
        (fun w b =>
          let w' : Walk κ σ := ⟨w.seen, visit b w.out⟩
          if enter b then walk visit n b w' else w')
        ⟨key a :: w.seen, w.out⟩

/-- The visitor that lists what it meets. -/
def meet (b : α) (out : List α) : List α :=
  out ++ [b]

/-- What the loop over the successors does with one of them. -/
def walkInto (visit : α → σ → σ) (n : Nat) (w : Walk κ σ) (b : α) : Walk κ σ :=
  let w' : Walk κ σ := ⟨w.seen, visit b w.out⟩
  if enter b then walk key next enter visit n b w' else w'

theorem walk_succ (visit : α → σ → σ) (n : Nat) (a : α) (w : Walk κ σ) :
    walk key next enter visit (n + 1) a w = if key a ∈ w.seen then w
      else (next a).foldl (walkInto key next enter visit n) ⟨key a :: w.seen, w.out⟩ :=
  rfl

/-- What a visitor builds does not steer the traversal: marks evolve alike for
    any two visitors, and related results stay related. -/
theorem walk_sim {τ : Type*} (visit : α → σ → σ) (visit' : α → τ → τ) (R : σ → τ → Prop)
    (hR : ∀ b s t, R s t → R (visit b s) (visit' b t)) (n : Nat) :
    ∀ (a : α) (w : Walk κ σ) (w' : Walk κ τ), w.seen = w'.seen → R w.out w'.out →
      (walk key next enter visit n a w).seen = (walk key next enter visit' n a w').seen ∧
        R (walk key next enter visit n a w).out (walk key next enter visit' n a w').out := by
  induction n with
  | zero => exact fun _ _ _ hs ho => ⟨hs, ho⟩
  | succ n ih =>
    intro a w w' hs ho
    rw [walk_succ, walk_succ, ← hs]
    split
    · exact ⟨hs, ho⟩
    · -- The loop over the successors keeps both relations.
      refine foldl_rel (r := fun (w : Walk κ σ) (w' : Walk κ τ) =>
        w.seen = w'.seen ∧ R w.out w'.out) ⟨rfl, ho⟩ ?_
      intro b _ w w' h
      have hvisit := hR b _ _ h.2
      unfold walkInto
      split
      · exact ih b _ _ h.1 hvisit
      · exact ⟨h.1, hvisit⟩

/-- What the visitor builds is a fold over the nodes met. -/
theorem walk_out (visit : α → σ → σ) (n : Nat) (a : α) (seen : List κ) (s : σ) :
    (walk key next enter visit n a ⟨seen, s⟩).out =
      (walk key next enter meet n a ⟨seen, []⟩).out.foldl (fun s b => visit b s) s := by
  have hsim := walk_sim key next enter visit meet
    (fun s' (l : List α) => s' = l.foldl (fun s b => visit b s) s)
    (fun b s' l h => by rw [h, meet, foldl_append]; rfl)
    n a ⟨seen, s⟩ ⟨seen, []⟩ rfl rfl
  exact hsim.2

/-! ## Enough fuel -/

variable {key next enter}

/-- The loop over some successors of `a`, given what a nested call does. -/
theorem explored_loop {n : Nat} {U : Finset κ} {root a : α}
    (ha : ReflTransGen (Enters next enter) root a)
    (hrec : ∀ (b : α) (w : Walk κ (List α)), ReflTransGen (Enters next enter) root b →
      (unmarked U w.seen).card ≤ n →
      Explored key next enter root w (walk key next enter meet n b w) ∧
        key b ∈ (walk key next enter meet n b w).seen)
    (bs : List α) (hbs : ∀ b ∈ bs, b ∈ next a) :
    ∀ w : Walk κ (List α), (unmarked U w.seen).card ≤ n →
      let w' := bs.foldl (walkInto key next enter meet n) w
      Explored key next enter root w w' ∧
        ∀ c ∈ bs, c ∈ w'.out ∧ (enter c = true → key c ∈ w'.seen) := by
  induction bs with
  | nil =>
    intro w _
    exact ⟨Explored.refl root w, nofun⟩
  | cons b bs ih =>
    intro w hw
    have hb : b ∈ next a := hbs b mem_cons_self
    have ih := ih fun c hc => hbs c (mem_cons_of_mem _ hc)
    -- Meeting `b` is one step; entering it, if allowed, is another.
    have hmeet : Explored key next enter root w ⟨w.seen, meet b w.out⟩ :=
      { seen := fun _ h => h
        out := fun c hc => mem_append_left _ hc
        closed := fun _ h h' => absurd h h'
        sound := by
          intro c hc
          rcases mem_append.mp hc with hc | hc
          · exact .inl hc
          · rw [mem_singleton.mp hc]
            exact .inr ⟨a, ha, hb⟩ }
    have hmet : b ∈ meet b w.out := mem_append_right _ (mem_singleton_self b)
    rw [foldl_cons]
    by_cases he : enter b = true
    · simp only [walkInto, he, if_true]
      obtain ⟨hex, hin⟩ := hrec b ⟨w.seen, meet b w.out⟩ (ha.tail ⟨hb, he⟩) hw
      have hex' := hmeet.trans hex
      obtain ⟨hrest, hall⟩ := ih _ ((card_unmarked_anti U hex'.seen).trans hw)
      refine ⟨hex'.trans hrest, ?_⟩
      intro c hc
      rcases mem_cons.mp hc with rfl | hc
      · exact ⟨hrest.out c (hex.out c hmet), fun _ => hrest.seen _ hin⟩
      · exact hall c hc
    · simp only [walkInto, he, Bool.false_eq_true, if_false]
      obtain ⟨hrest, hall⟩ := ih ⟨w.seen, meet b w.out⟩ hw
      refine ⟨hmeet.trans hrest, ?_⟩
      intro c hc
      rcases mem_cons.mp hc with rfl | hc
      · exact ⟨hrest.out c hmet, fun h => absurd h he⟩
      · exact hall c hc

/-- With as much fuel as there are unmarked nodes, a traversal explores. The set
    `U` has every node that can be entered from the root. -/
theorem explored_walk (hkey : Function.Injective key) {U : Finset κ} {root : α}
    (hU : ∀ a, ReflTransGen (Enters next enter) root a → key a ∈ U) (n : Nat) :
    ∀ (a : α) (w : Walk κ (List α)), ReflTransGen (Enters next enter) root a →
      (unmarked U w.seen).card ≤ n →
      Explored key next enter root w (walk key next enter meet n a w) ∧
        key a ∈ (walk key next enter meet n a w).seen := by
  induction n with
  | zero =>
    intro a w ha hcard
    refine ⟨Explored.refl root w, ?_⟩
    -- Out of fuel means that nothing is unmarked.
    by_contra hnot
    have hmem : key a ∈ unmarked U w.seen := Finset.mem_filter.mpr ⟨hU a ha, hnot⟩
    rw [Finset.card_eq_zero.mp (Nat.le_zero.mp hcard)] at hmem
    cases hmem
  | succ n ih =>
    intro a w ha hcard
    rw [walk_succ]
    split
    · rename_i hseen
      exact ⟨Explored.refl root w, hseen⟩
    · rename_i hseen
      obtain ⟨hex, hall⟩ := explored_loop ha ih (next a) (fun _ h => h)
        ⟨key a :: w.seen, w.out⟩
        (Nat.le_of_lt_succ ((card_unmarked_mark (hU a ha) hseen).trans_le hcard))
      refine ⟨⟨fun k hk => hex.seen k (mem_cons_of_mem _ hk), hex.out, ?_, hex.sound⟩,
        hex.seen _ mem_cons_self⟩
      intro b hb hnot c hc
      by_cases hba : key b = key a
      · rw [hkey hba] at hc
        exact hall c hc
      · refine hex.closed b hb ?_ c hc
        rw [mem_cons, not_or]
        exact ⟨hba, hnot⟩

/-- The nodes met by a traversal from `a` are the successors of the nodes that
    can be entered from `a`. -/
theorem mem_walk_iff (hkey : Function.Injective key) {U : Finset κ} {a : α}
    (hU : ∀ b, ReflTransGen (Enters next enter) a b → key b ∈ U) {n : Nat}
    (hn : U.card ≤ n) (c : α) :
    c ∈ (walk key next enter meet n a ⟨[], []⟩).out ↔
      ∃ b, ReflTransGen (Enters next enter) a b ∧ c ∈ next b := by
  obtain ⟨hex, hin⟩ := explored_walk hkey hU n a ⟨[], []⟩ ReflTransGen.refl
    (Nat.le_trans (Finset.card_filter_le _ _) hn)
  constructor
  · intro hc
    exact (hex.sound c hc).resolve_left not_mem_nil
  · rintro ⟨b, hab, hc⟩
    -- Every node entered on the way is marked, by induction along the way.
    have hmark : ∀ d, ReflTransGen (Enters next enter) a d →
        key d ∈ (walk key next enter meet n a ⟨[], []⟩).seen := by
      intro d had
      induction had with
      | refl => exact hin
      | tail _ hstep ih =>
        exact (hex.closed _ ih not_mem_nil _ hstep.1).2 hstep.2
    exact (hex.closed b (hmark b hab) not_mem_nil c hc).1

end

end Lib

end GoRdf
