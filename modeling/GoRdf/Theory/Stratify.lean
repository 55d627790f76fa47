import Mathlib.Algebra.Order.Group.Nat
import GoRdf.Core.Srl
import GoRdf.Lib.Iterate
import GoRdf.Lib.Route

/-!
# Which Rule Sets Are Stratified

The passes of `Stratify` compute the weights of the heaviest routes through the
dependency graph, in which a negative edge weighs one. If no cycle has a negative
edge, the heaviest routes visit no rule twice: the passes reach them all, no
stratum is out of range, and the strata are valid.

If some cycle has a negative edge, the strata never come to rest, and whether that
is noticed depends on where the last pass stops, since only negative edges are
checked after it. A pass works in place and in the order of the rules, so that it
follows an edge to a rule listed before at once and any other edge a pass later. The
strata after `k` passes are therefore the weights of the walks that `k` passes can
follow (`PassWalk`), and the cycle is noticed exactly when these walks give it away.

## Main definitions

* `Dep.Edge`: The dependency graph, with weights.
* `NegativeCycle`: A cycle with a negative edge.
* `ValidStrata`: What strata are for.
* `PassWalk`: A walk that some passes can follow.
* `Noticed`: The walks give a cycle away.
* `StratifiesCorrectly`: What `Stratify` promises.

## Theorems

* `relaxPass_spec`: What a pass does.
* `relax_potential`: Without cycles that gain, the passes end in a potential.
* `PassWalk.le_strataAfter`, `passWalk_strataAfter`: Strata are weights of walks.
* `stratify_error_iff`: When `Stratify` fails.
* `stratify_correct_iff`: When `Stratify` keeps its promise.
-/

namespace GoRdf

open Lib List Relation Function

section

variable {n : Nat}

/-- The weight of an edge. -/
def Dep.weight (e : Dep n) : Nat :=
  if e.negative then 1 else 0

theorem Dep.required_eq (e : Dep n) (strata : Fin n → Nat) :
    e.required strata = strata e.target + e.weight := by
  rw [Dep.required, Dep.weight]
  split <;> rfl

/-- The dependency graph: `b` depends on `c`, and a negative edge weighs one. -/
def Dep.Edge (deps : Fin n → List (Dep n)) (b c : Fin n) (m : Nat) : Prop :=
  ∃ e ∈ deps b, e.target = c ∧ e.weight = m

theorem Dep.Edge.le_one {deps : Fin n → List (Dep n)} {b c : Fin n} {m : Nat}
    (h : Dep.Edge deps b c m) : m ≤ 1 := by
  obtain ⟨e, -, -, rfl⟩ := h
  rw [Dep.weight]
  split <;> decide

variable {deps : Fin n → List (Dep n)} {strata : Fin n → Nat}

/-! ## One pass -/

/-- One edge raises the stratum of its rule to what it asks for, and no other. -/
theorem relaxEdge_spec (b : Fin n) (st : (Fin n → Nat) × Bool) (e : Dep n) :
    (∀ c, c ≠ b → (relaxEdge b st e).1 c = st.1 c) ∧ st.1 b ≤ (relaxEdge b st e).1 b ∧
      st.1 e.target + e.weight ≤ (relaxEdge b st e).1 b ∧
      ((relaxEdge b st e).2 = false → relaxEdge b st e = st) := by
  rw [relaxEdge, Dep.required_eq]
  split
  · rename_i hlt
    have hself : (update st.1 b (st.1 e.target + e.weight)) b =
        st.1 e.target + e.weight := update_self _ _ _
    exact ⟨fun c hc => update_of_ne hc _ _, hself.ge.trans' hlt.le, hself.ge,
      nofun⟩
  · rename_i hge
    exact ⟨fun c _ => rfl, le_rfl, Nat.le_of_not_lt hge, fun _ => rfl⟩

/-- So does the loop over the edges of a rule. -/
theorem foldl_relaxEdge (b : Fin n) (es : List (Dep n)) (st : (Fin n → Nat) × Bool) :
    (∀ c, c ≠ b → (es.foldl (relaxEdge b) st).1 c = st.1 c) ∧
      st.1 b ≤ (es.foldl (relaxEdge b) st).1 b ∧
      (∀ e ∈ es, st.1 e.target + e.weight ≤ (es.foldl (relaxEdge b) st).1 b) ∧
      ((es.foldl (relaxEdge b) st).2 = false → es.foldl (relaxEdge b) st = st) := by
  induction es generalizing st with
  | nil => exact ⟨fun c _ => rfl, le_rfl, nofun, fun _ => rfl⟩
  | cons e es ih =>
    rw [foldl_cons]
    obtain ⟨hother, hb, hedges, hsame⟩ := ih (relaxEdge b st e)
    obtain ⟨hother₁, hb₁, hedge₁, hsame₁⟩ := relaxEdge_spec b st e
    have hmono : ∀ c, st.1 c ≤ (relaxEdge b st e).1 c := by
      intro c
      by_cases hc : c = b
      · rw [hc]
        exact hb₁
      · exact (hother₁ c hc).ge
    refine ⟨fun c hc => (hother c hc).trans (hother₁ c hc), hb₁.trans hb, ?_, fun h => ?_⟩
    · intro e' he'
      rcases mem_cons.mp he' with rfl | he'
      · exact hedge₁.trans hb
      · exact (Nat.add_le_add_right (hmono e'.target) _).trans (hedges e' he')
    · have hst := hsame h
      rw [hst] at h ⊢
      exact hsame₁ h

/-- A pass over rules in the order they are listed in. An edge to a rule that was passed
    over before is asked for with the stratum the pass has given that rule. -/
theorem foldl_relaxRule (bs : List (Fin n)) (hsorted : bs.Pairwise (· < ·))
    (st : (Fin n → Nat) × Bool) :
    let st' := bs.foldl (fun st b => (deps b).foldl (relaxEdge b) st) st
    (∀ c, c ∉ bs → st'.1 c = st.1 c) ∧ (∀ c, st.1 c ≤ st'.1 c) ∧
      (∀ b ∈ bs, ∀ e ∈ deps b, st.1 e.target + e.weight ≤ st'.1 b ∧
        (e.target ∈ bs → e.target < b → st'.1 e.target + e.weight ≤ st'.1 b)) ∧
      (st'.2 = false → st' = st) := by
  induction bs generalizing st with
  | nil =>
    exact ⟨fun c _ => rfl, fun c => le_rfl, nofun,
      fun _ => rfl⟩
  | cons b bs ih =>
    intro st'
    rw [pairwise_cons] at hsorted
    have hb : b ∉ bs := fun hmem => lt_irrefl b (hsorted.1 b hmem)
    obtain ⟨hother₁, hmono₁, hedges₁, hsame₁⟩ := foldl_relaxEdge b (deps b) st
    obtain ⟨hother, hmono, hedges, hsame⟩ := ih hsorted.2 ((deps b).foldl (relaxEdge b) st)
    -- The rest of the pass does not touch the first rule again, since the rules are distinct.
    have hfirst : st'.1 b = ((deps b).foldl (relaxEdge b) st).1 b := hother b hb
    have hgrow : ∀ c, st.1 c ≤ ((deps b).foldl (relaxEdge b) st).1 c := by
      intro c
      by_cases hc : c = b
      · rw [hc]
        exact hmono₁
      · exact (hother₁ c hc).ge
    refine ⟨fun c hc => ?_, fun c => (hgrow c).trans (hmono c), fun b' hb' e he => ?_,
      fun h => ?_⟩
    · rw [mem_cons, not_or] at hc
      exact (hother c hc.2).trans (hother₁ c hc.1)
    · rcases mem_cons.mp hb' with rfl | hb'
      · -- No rule of the list comes before the first.
        refine ⟨hfirst ▸ hedges₁ e he, fun hmem hlt => ?_⟩
        rcases mem_cons.mp hmem with heq | hmem
        · exact absurd hlt (heq ▸ lt_irrefl _)
        · exact absurd hlt (lt_asymm (hsorted.1 _ hmem))
      · obtain ⟨hle, hlater⟩ := hedges b' hb' e he
        refine ⟨(Nat.add_le_add_right (hgrow _) _).trans hle, fun hmem hlt => ?_⟩
        rcases mem_cons.mp hmem with heq | hmem
        · have hvalue : st'.1 e.target = ((deps b).foldl (relaxEdge b) st).1 e.target := by
            rw [heq, hfirst]
          rw [hvalue]
          exact hle
        · exact hlater hmem hlt
    · have hst := hsame h
      change bs.foldl _ _ = st
      rw [hst]
      refine hsame₁ ?_
      rw [← hst]
      exact h

/-- What a pass does. -/
theorem relaxPass_spec (deps : Fin n → List (Dep n)) (strata : Fin n → Nat) :
    (∀ c, strata c ≤ (relaxPass deps strata).1 c) ∧
      (∀ b c m, Dep.Edge deps b c m → strata c + m ≤ (relaxPass deps strata).1 b ∧
        (c < b → (relaxPass deps strata).1 c + m ≤ (relaxPass deps strata).1 b)) ∧
      ((relaxPass deps strata).2 = false → (relaxPass deps strata).1 = strata) := by
  obtain ⟨-, hmono, hedges, hsame⟩ := @foldl_relaxRule n deps (List.finRange n)
    (pairwise_lt_finRange n) (strata, false)
  refine ⟨hmono, ?_, fun h => congrArg Prod.fst (hsame h)⟩
  rintro b c m ⟨e, he, rfl, rfl⟩
  obtain ⟨hle, hlater⟩ := hedges b (mem_finRange b) e he
  exact ⟨hle, hlater (mem_finRange _)⟩

/-! ## Routes -/

/-- Every stratum is the weight of a route. -/
def Reached (deps : Fin n → List (Dep n)) (strata : Fin n → Nat) : Prop :=
  ∀ b, ∃ v p, Route (Dep.Edge deps) b v p (strata b)

theorem reached_zero : Reached deps fun _ => 0 :=
  fun b => ⟨b, [b], .nil b⟩

theorem Reached.relaxEdge {st : (Fin n → Nat) × Bool} (h : Reached deps st.1) {b : Fin n}
    {e : Dep n} (he : e ∈ deps b) : Reached deps (relaxEdge b st e).1 := by
  rw [GoRdf.relaxEdge, Dep.required_eq]
  split
  · intro c
    by_cases hc : c = b
    · obtain ⟨v, p, hp⟩ := h e.target
      dsimp only
      rw [hc, update_self, Nat.add_comm]
      exact ⟨v, b :: p, .cons ⟨e, he, rfl, rfl⟩ hp⟩
    · dsimp only
      rw [update_of_ne hc]
      exact h c
  · exact h

theorem Reached.relaxPass (h : Reached deps strata) :
    Reached deps (relaxPass deps strata).1 := by
  let P : (Fin n → Nat) × Bool → Prop := fun st => Reached deps st.1
  refine List.foldlRecOn (motive := P) _ _ h fun st hst b _ => ?_
  exact List.foldlRecOn (motive := P) _ _ hst fun st hst e he => Reached.relaxEdge hst he

/-- Routes that visit at most `k` rules after the first are accounted for. -/
def Accounts (deps : Fin n → List (Dep n)) (k : Nat) (strata : Fin n → Nat) : Prop :=
  ∀ b v p w, Route (Dep.Edge deps) b v p w → p.length ≤ k + 1 → w ≤ strata b

theorem accounts_zero (strata : Fin n → Nat) : Accounts deps 0 strata := by
  intro b v p w h hlen
  cases h with
  | nil => exact Nat.zero_le _
  | cons e h =>
    rw [length_cons] at hlen
    have hpos := h.length_pos
    omega

/-- Each pass accounts for routes that are longer by one. -/
theorem Accounts.relaxPass {k : Nat} (h : Accounts deps k strata) :
    Accounts deps (k + 1) (relaxPass deps strata).1 := by
  obtain ⟨-, hedges, -⟩ := relaxPass_spec deps strata
  intro b v p w hroute hlen
  cases hroute with
  | nil => exact Nat.zero_le _
  | @cons _ x _ p m w e hroute =>
    have hrest : w ≤ strata x := h x v p w hroute (by rw [length_cons] at hlen; omega)
    have hfirst := (hedges b x m e).1
    omega

/-- Once all routes without repetitions are accounted for, the strata are a potential. -/
theorem potential_of_accounts (hgain : NoGain (Dep.Edge deps)) {k : Nat} (hk : n ≤ k + 1)
    (hreach : Reached deps strata) (h : Accounts deps k strata) :
    Potential (Dep.Edge deps) strata := by
  intro b c m e
  obtain ⟨v, p, hp⟩ := hreach c
  obtain ⟨p', hp', hnodup⟩ := (Route.cons e hp).exists_nodup hgain
  have hlen : p'.length ≤ n := by
    have hcard := hnodup.length_le_card
    rwa [Fintype.card_fin] at hcard
  have hle := h b v p' _ hp' (hlen.trans hk)
  omega

/-- Without cycles that gain, no stratum is out of range. -/
theorem Reached.lt (hgain : NoGain (Dep.Edge deps))
    (h : Reached deps strata) (b : Fin n) : strata b < n := by
  obtain ⟨v, p, hp⟩ := h b
  obtain ⟨p', hp', hnodup⟩ := hp.exists_nodup hgain
  have hcard := hnodup.length_le_card
  rw [Fintype.card_fin] at hcard
  exact (hp'.weight_lt fun _ _ _ e => e.le_one).trans_le hcard

/-! ## All passes -/

/-- Strata that a pass leaves as they are form a potential. -/
theorem potential_of_unchanged
    (h : (relaxPass deps strata).2 = false) : Potential (Dep.Edge deps) strata := by
  obtain ⟨-, hedges, hsame⟩ := relaxPass_spec deps strata
  intro b c m e
  have hle := (hedges b c m e).1
  rwa [hsame h] at hle

/-- Without cycles that gain, the passes end in a potential. -/
theorem relax_potential (hgain : NoGain (Dep.Edge deps)) (iter k : Nat) (hk : n ≤ k + iter)
    (hreach : Reached deps strata) (h : Accounts deps k strata) :
    ∃ strata', relax deps iter strata = .ok strata' ∧ Potential (Dep.Edge deps) strata' := by
  induction iter generalizing k strata with
  | zero => exact ⟨strata, rfl, potential_of_accounts hgain (by omega) hreach h⟩
  | succ iter ih =>
    rw [relax]
    cases hchanged : (relaxPass deps strata).2 with
    | false =>
      refine ⟨_, if_neg Bool.false_ne_true, ?_⟩
      rw [(relaxPass_spec deps strata).2.2 hchanged]
      exact potential_of_unchanged hchanged
    | true =>
      have hrange : ¬ (List.finRange n).any (fun b => n < (relaxPass deps strata).1 b) = true := by
        rw [any_eq_true]
        rintro ⟨b, -, hb⟩
        exact absurd (hreach.relaxPass.lt hgain b) (lt_asymm (of_decide_eq_true hb))
      rw [if_neg hrange]
      exact ih (k + 1) (by omega) hreach.relaxPass h.relaxPass

/-! ## Walks that passes follow -/

/-- `k` passes follow a walk from `b` with `w` negative edges. A pass goes through the
    rules in their order, so it follows an edge to a rule listed before at once. An edge
    to any other rule uses what the pass before has left. -/
inductive PassWalk (deps : Fin n → List (Dep n)) : Nat → Fin n → Nat → Prop
  | stop (k : Nat) (b : Fin n) : PassWalk deps k b 0
  | before {k w : Nat} {b : Fin n} {e : Dep n} (he : e ∈ deps b) (hlt : e.target < b)
      (h : PassWalk deps (k + 1) e.target w) : PassWalk deps (k + 1) b (w + e.weight)
  | next {k w : Nat} {b : Fin n} {e : Dep n} (he : e ∈ deps b)
      (h : PassWalk deps k e.target w) : PassWalk deps (k + 1) b (w + e.weight)

theorem PassWalk.succ {k w : Nat} {b : Fin n} (h : PassWalk deps k b w) :
    PassWalk deps (k + 1) b w := by
  induction h with
  | stop k b => exact .stop _ b
  | before he hlt _ ih => exact .before he hlt ih
  | next he _ ih => exact .next he ih

/-- The strata after `k` passes, if none of them ends the loop. -/
def strataAfter (deps : Fin n → List (Dep n)) (k : Nat) : Fin n → Nat :=
  (fun strata => (relaxPass deps strata).1)^[k] fun _ => 0

theorem strataAfter_succ (k : Nat) :
    strataAfter deps (k + 1) = (relaxPass deps (strataAfter deps k)).1 :=
  iterate_succ_apply' _ _ _

/-- A stratum is no lower than the walks that were followed. -/
theorem PassWalk.le_strataAfter {k w : Nat} {b : Fin n} (h : PassWalk deps k b w) :
    w ≤ strataAfter deps k b := by
  induction h with
  | stop => exact Nat.zero_le _
  | @before k w b e he hlt _ ih =>
    rw [strataAfter_succ] at ih ⊢
    have hpass := ((relaxPass_spec deps (strataAfter deps k)).2.1 b e.target e.weight
      ⟨e, he, rfl, rfl⟩).2 hlt
    omega
  | @next k w b e he _ ih =>
    rw [strataAfter_succ]
    have hpass := ((relaxPass_spec deps (strataAfter deps k)).2.1 b e.target e.weight
      ⟨e, he, rfl, rfl⟩).1
    omega

/-- No rule depends on itself negatively. Such a rule rises in every pass. -/
def SelfPositive (deps : Fin n → List (Dep n)) : Prop :=
  ∀ b, ∀ e ∈ deps b, e.target = b → e.negative = false

/-- The strata in the middle of a pass, with the rules `bs` still to come: those are as
    the pass before has left them. -/
def Midway (deps : Fin n → List (Dep n)) (k : Nat) (bs : List (Fin n)) (strata : Fin n → Nat) :
    Prop :=
  (∀ c ∈ bs, PassWalk deps k c (strata c)) ∧ ∀ c, c ∉ bs → PassWalk deps (k + 1) c (strata c)

/-- The edges of a rule raise it to a walk, and leave the others as they are. -/
theorem Midway.rule (hself : SelfPositive deps) {k : Nat} {b : Fin n} {bs : List (Fin n)}
    {st : (Fin n → Nat) × Bool} (hb : b ∉ bs) (hpast : ∀ c, c ∉ b :: bs → c < b)
    (h : Midway deps k (b :: bs) st.1) :
    Midway deps k bs ((deps b).foldl (relaxEdge b) st).1 := by
  -- The loop over the edges of one rule: it only touches that rule, whose stratum stays the weight
  -- of a walk.
  let Q : (Fin n → Nat) × Bool → Prop := fun st' =>
    (∀ c, c ≠ b → st'.1 c = st.1 c) ∧ PassWalk deps (k + 1) b (st'.1 b)
  have hedges : Q ((deps b).foldl (relaxEdge b) st) := by
    refine List.foldlRecOn (motive := Q) _ _ ⟨fun _ _ => rfl, (h.1 b mem_cons_self).succ⟩ ?_
    rintro st' ⟨hother, hwalk⟩ e he
    rw [relaxEdge, Dep.required_eq]
    split
    · rename_i hlt
      refine ⟨fun c hc => (update_of_ne hc _ _).trans (hother c hc), ?_⟩
      dsimp only
      rw [update_self]
      by_cases htarget : e.target = b
      · -- An edge to the rule itself is positive, and asks for nothing.
        rw [htarget, Dep.weight, hself b e he htarget] at hlt
        exact absurd hlt (Nat.lt_irrefl _)
      · rw [hother _ htarget]
        by_cases hmem : e.target ∈ b :: bs
        · exact .next he (h.1 _ hmem)
        · exact .before he (hpast _ hmem) (h.2 _ hmem)
    · exact ⟨hother, hwalk⟩
  obtain ⟨hother, hwalk⟩ := hedges
  constructor
  · intro c hc
    have hcb : c ≠ b := fun heq => hb (heq ▸ hc)
    rw [hother c hcb]
    exact h.1 c (mem_cons_of_mem _ hc)
  · intro c hc
    by_cases hcb : c = b
    · rw [hcb]
      exact hwalk
    · rw [hother c hcb]
      exact h.2 c (by simp [hcb, hc])

theorem Midway.rules (hself : SelfPositive deps) {k : Nat} {bs : List (Fin n)}
    {st : (Fin n → Nat) × Bool} (hsorted : bs.Pairwise (· < ·))
    (hpast : ∀ c, c ∉ bs → ∀ b ∈ bs, c < b) (h : Midway deps k bs st.1) :
    Midway deps k [] (bs.foldl (fun st b => (deps b).foldl (relaxEdge b) st) st).1 := by
  induction bs generalizing st with
  | nil => exact h
  | cons b bs ih =>
    rw [pairwise_cons] at hsorted
    have hb : b ∉ bs := fun hmem => lt_irrefl b (hsorted.1 b hmem)
    refine ih hsorted.2 ?_ (h.rule hself hb fun c hc => hpast c hc b mem_cons_self)
    intro c hc d hd
    by_cases hcb : c = b
    · rw [hcb]
      exact hsorted.1 d hd
    · exact hpast c (by simp [hcb, hc]) d (mem_cons_of_mem _ hd)

/-- And it is no higher: some walk that was followed has as many negative edges. -/
theorem passWalk_strataAfter (hself : SelfPositive deps) (k : Nat) (b : Fin n) :
    PassWalk deps k b (strataAfter deps k b) := by
  induction k generalizing b with
  | zero => exact .stop 0 b
  | succ k ih =>
    rw [strataAfter_succ]
    have hstart : Midway deps k (List.finRange n) (strataAfter deps k, false).1 :=
      ⟨fun c _ => ih c, fun c hc => absurd (mem_finRange c) hc⟩
    exact (Midway.rules hself (pairwise_lt_finRange n)
      (fun c hc => absurd (mem_finRange c) hc) hstart).2 b not_mem_nil

/-- The loop fails exactly when its passes would take a stratum out of range. -/
theorem relax_eq (iter : Nat) (hrange : ∀ b, strata b ≤ n) :
    let last := (fun strata => (relaxPass deps strata).1)^[iter] strata
    ((∀ b, last b ≤ n) → relax deps iter strata = .ok last) ∧
      ((∃ b, n < last b) → relax deps iter strata = .error .negativeCycle) := by
  induction iter generalizing strata with
  | zero => exact ⟨fun _ => rfl, fun ⟨b, hb⟩ => absurd (hrange b) (Nat.not_le_of_lt hb)⟩
  | succ iter ih =>
    intro last
    -- Strata only grow, so one that is out of range stays out of range.
    have hmono : ∀ c, (relaxPass deps strata).1 c ≤ last c := by
      have hgrow : ∀ i s, ∀ c, s c ≤ (fun strata => (relaxPass deps strata).1)^[i] s c := by
        intro i
        induction i with
        | zero => exact fun _ _ => le_rfl
        | succ i ih => exact fun s c => ((relaxPass_spec deps s).1 c).trans (ih _ c)
      exact hgrow iter _
    rw [relax]
    cases hchanged : (relaxPass deps strata).2 with
    | false =>
      have hsame := (relaxPass_spec deps strata).2.2 hchanged
      have hlast : last = strata := iterate_fixed hsame (iter + 1)
      rw [hlast, hsame]
      exact ⟨fun _ => rfl, fun ⟨b, hb⟩ => absurd (hrange b) (Nat.not_le_of_lt hb)⟩
    | true =>
      rw [if_pos rfl]
      split
      · rename_i hany
        obtain ⟨b, -, hb⟩ := any_eq_true.mp hany
        have hb := (of_decide_eq_true hb).trans_le (hmono b)
        exact ⟨fun hle => absurd (hle b) (Nat.not_le_of_lt hb), fun _ => rfl⟩
      · rename_i hnone
        refine ih fun b => Nat.le_of_not_lt fun hb => hnone ?_
        exact any_eq_true.mpr ⟨b, mem_finRange b, decide_eq_true hb⟩

/-- The passes come to know of a cycle: one of the walks they follow has more negative
    edges than there are rules, or a rule depends negatively on one from which they
    follow walks with as many negative edges. -/
def Noticed (deps : Fin n → List (Dep n)) : Prop :=
  (∃ b w, n < w ∧ PassWalk deps (n + 1) b w) ∨
    ∃ b, ∃ e ∈ deps b, e.negative = true ∧
      ∀ w, PassWalk deps (n + 1) b w → ∃ w', w ≤ w' ∧ PassWalk deps (n + 1) e.target w'

/-- A rule that depends on itself negatively is noticed. -/
theorem noticed_of_not_selfPositive (h : ¬ SelfPositive deps) :
    ∃ b w, n < w ∧ PassWalk deps (n + 1) b w := by
  simp only [SelfPositive, not_forall] at h
  obtain ⟨b, e, he, htarget, hneg⟩ := h
  have hweight : e.weight = 1 := if_pos (by simpa using hneg)
  have hround : ∀ k, PassWalk deps k b k := by
    intro k
    induction k with
    | zero => exact .stop 0 b
    | succ k ih =>
      have hnext := PassWalk.next he (htarget.symm ▸ ih)
      rwa [hweight] at hnext
  exact ⟨b, n + 1, Nat.lt_succ_self n, hround _⟩

/-! ## Strata -/

/-- Strata that partition the rules such that a rule is in no lower stratum than a rule it
    depends on, and in a higher one if it depends on it negatively. -/
structure ValidStrata (deps : Fin n → List (Dep n)) (strata : List (List (Fin n))) : Prop where
  partition : strata.flatten.Perm (List.finRange n)
  ordered : ∀ b, ∀ e ∈ deps b, ∀ s t, b ∈ strata.getD s [] → e.target ∈ strata.getD t [] →
    t ≤ s ∧ (e.negative = true → t < s)

theorem foldl_max_spec (strata : Fin n → Nat) (bs : List (Fin n)) (m : Nat) :
    m ≤ bs.foldl (fun m i => if strata i > m then strata i else m) m ∧
      ∀ i ∈ bs, strata i ≤ bs.foldl (fun m i => if strata i > m then strata i else m) m := by
  have hle : ∀ k, k ≤ bs.foldl (fun m i => if strata i > m then strata i else m) m ↔
      k ≤ m ∨ ∃ i ∈ bs, k ≤ strata i := by
    intro k
    refine Lib.foldl_iff (M := (k ≤ ·)) (fun m i => ?_) bs m
    split <;> omega
  exact ⟨(hle m).mpr (.inl le_rfl), fun i hi => (hle _).mpr (.inr ⟨i, hi, le_rfl⟩)⟩

/-- A rule is in the group of its stratum. -/
theorem mem_groupByStratum (strata : Fin n → Nat) (i : Fin n) (s : Nat) :
    i ∈ (groupByStratum strata).getD s [] ↔ strata i = s := by
  have hmax := (foldl_max_spec strata (List.finRange n) 0).2 i (mem_finRange i)
  rw [groupByStratum, getD_eq_getElem?_getD, getElem?_map]
  by_cases hs : s < (List.finRange n).foldl (fun m i => if strata i > m then strata i else m) 0 + 1
  · rw [getElem?_range hs]
    simp
  · rw [getElem?_eq_none (by rw [length_range]; omega)]
    have hne : strata i ≠ s := by omega
    simp [hne]

/-- The groups of a potential are valid strata. -/
theorem validStrata_of_potential
    (h : Potential (Dep.Edge deps) strata) : ValidStrata deps (groupByStratum strata) := by
  refine ⟨?_, fun b e he s t hs ht => ?_⟩
  · refine (perm_ext_iff_of_nodup ?_ (nodup_finRange n)).mpr fun i => ?_
    · rw [nodup_flatten]
      refine ⟨fun l hl => ?_, ?_⟩
      · obtain ⟨s, -, rfl⟩ := mem_map.mp hl
        exact (nodup_finRange n).filter _
      · rw [groupByStratum, pairwise_map]
        refine nodup_range.imp fun hne i hi hj => ?_
        rw [mem_filter, decide_eq_true_eq] at hi hj
        exact hne (hi.2.symm.trans hj.2)
    · refine iff_of_true (mem_flatten.mpr ?_) (mem_finRange i)
      have hmem := (mem_groupByStratum strata i (strata i)).mpr rfl
      rw [getD_eq_getElem?_getD] at hmem
      cases hget : (groupByStratum strata)[strata i]? with
      | none =>
        rw [hget] at hmem
        cases hmem
      | some l =>
        rw [hget] at hmem
        exact ⟨l, mem_of_getElem? hget, hmem⟩
  · rw [mem_groupByStratum] at hs ht
    have hle := h b e.target e.weight ⟨e, he, rfl, rfl⟩
    refine ⟨by omega, fun hneg => ?_⟩
    have hweight : e.weight = 1 := if_pos hneg
    omega

/-- A potential passes the check of the negative edges. -/
theorem negativeEdgesHold_of_potential
    (h : Potential (Dep.Edge deps) strata) : negativeEdgesHold deps strata = true := by
  rw [negativeEdgesHold, all_eq_true]
  intro b _
  rw [all_eq_true]
  intro e he
  have hle := h b e.target e.weight ⟨e, he, rfl, rfl⟩
  cases hneg : e.negative with
  | false => rfl
  | true =>
    have hweight : e.weight = 1 := if_pos hneg
    have hlt : ¬ strata b ≤ strata e.target := by omega
    simp [hlt]

end

/-! ## Rule sets -/

/-- The dependency graph of the rules has a cycle with a negative edge: a rule depends
    negatively on one that depends on it in turn. -/
def NegativeCycle (rs : RuleSet) : Prop :=
  ∃ b, ∃ e ∈ dependencies rs.rules b, e.negative = true ∧
    ReflTransGen (fun b c => ∃ e ∈ dependencies rs.rules b, e.target = c) e.target b

theorem negativeCycle_iff (rs : RuleSet) :
    NegativeCycle rs ↔ ¬ NoGain (Dep.Edge (dependencies rs.rules)) := by
  have hadj : Adj (Dep.Edge (dependencies rs.rules)) =
      fun b c => ∃ e ∈ dependencies rs.rules b, e.target = c := by
    funext b c
    refine propext ⟨?_, ?_⟩
    · rintro ⟨m, e, he, hc, -⟩
      exact ⟨e, he, hc⟩
    · rintro ⟨e, he, hc⟩
      exact ⟨e.weight, e, he, hc, rfl⟩
  rw [not_noGain_iff, hadj]
  constructor
  · rintro ⟨b, e, he, hneg, hback⟩
    exact ⟨b, e.target, e.weight, by rw [Dep.weight, if_pos hneg]; exact Nat.one_pos,
      ⟨e, he, rfl, rfl⟩, hback⟩
  · rintro ⟨b, c, m, hm, ⟨e, he, rfl, rfl⟩, hback⟩
    refine ⟨b, e, he, ?_, hback⟩
    by_contra hneg
    rw [Dep.weight, if_neg hneg] at hm
    exact absurd hm (Nat.lt_irrefl 0)

/-- `Stratify` fails exactly on the rule sets with a negative cycle, and otherwise its
    strata are valid. -/
def StratifiesCorrectly (rs : RuleSet) : Prop :=
  ((∃ e, stratify rs = .error e) ↔ NegativeCycle rs) ∧
    ∀ strata, stratify rs = .ok strata → ValidStrata (dependencies rs.rules) strata

/-- Without a negative cycle `Stratify` returns valid strata. -/
theorem stratify_ok {rs : RuleSet} (h : ¬ NegativeCycle rs) :
    ∃ strata, stratify rs = .ok strata ∧ ValidStrata (dependencies rs.rules) strata := by
  rw [negativeCycle_iff, not_not] at h
  rw [stratify]
  split
  · rename_i hlen
    refine ⟨[], rfl, ?_, fun b => absurd b.isLt (by omega)⟩
    rw [flatten_nil, perm_comm, perm_nil, ← length_eq_zero_iff, length_finRange]
    exact hlen
  · obtain ⟨strata, hrelax, hpot⟩ := relax_potential h (rs.rules.length + 1) 0 (by omega)
      reached_zero (accounts_zero _)
    refine ⟨groupByStratum strata, ?_, validStrata_of_potential hpot⟩
    dsimp only
    rw [hrelax]
    exact if_pos (negativeEdgesHold_of_potential hpot)

/-- What is noticed makes `Stratify` fail, and nothing else does. -/
theorem stratify_error_iff (rs : RuleSet) :
    (∃ e, stratify rs = .error e) ↔ Noticed (dependencies rs.rules) := by
  let deps := dependencies rs.rules
  have hpasses := @relax_eq _ deps (fun _ => 0) (rs.rules.length + 1) fun _ => Nat.zero_le _
  by_cases hlen : rs.rules.length = 0
  · have hnone : ∀ b : Fin rs.rules.length, False := fun b => absurd b.isLt (by omega)
    refine iff_of_false ?_ ?_
    · rw [stratify, if_pos hlen]
      exact nofun
    · rintro (⟨b, -⟩ | ⟨b, -⟩)
      · exact hnone b
      · exact hnone b
  by_cases hover : ∃ b w, rs.rules.length < w ∧ PassWalk deps (rs.rules.length + 1) b w
  · refine iff_of_true ⟨.negativeCycle, ?_⟩ (.inl hover)
    obtain ⟨b, w, hw, hwalk⟩ := hover
    rw [stratify, if_neg hlen]
    dsimp only
    rw [hpasses.2 ⟨b, hw.trans_le hwalk.le_strataAfter⟩]
    rfl
  -- No stratum is out of range, so the check of the negative edges decides.
  have hself : SelfPositive deps := by
    by_contra hself
    exact hover (noticed_of_not_selfPositive hself)
  have hattained := passWalk_strataAfter hself (rs.rules.length + 1)
  have hok := hpasses.1 fun b => Nat.le_of_not_lt fun hb => hover ⟨b, _, hb, hattained b⟩
  have hfails : (∃ e, stratify rs = .error e) ↔
      negativeEdgesHold deps (strataAfter deps (rs.rules.length + 1)) = false := by
    rw [stratify, if_neg hlen]
    dsimp only
    rw [hok]
    change (∃ e, (if negativeEdgesHold deps (strataAfter deps _) = true then _ else _) = _) ↔ _
    cases negativeEdgesHold deps (strataAfter deps (rs.rules.length + 1)) with
    | false => exact iff_of_true ⟨_, rfl⟩ rfl
    | true => exact iff_of_false (by rintro ⟨e, he⟩; cases he) (by decide)
  rw [hfails, negativeEdgesHold, Bool.eq_false_iff, Ne, all_eq_true]
  simp only [mem_finRange, forall_const, all_eq_true, not_forall]
  constructor
  · rintro ⟨b, e, he, hviolated⟩
    simp only [Bool.not_eq_true', Bool.not_eq_false, Bool.and_eq_true,
      decide_eq_true_eq] at hviolated
    refine .inr ⟨b, e, he, hviolated.1, fun w hw => ⟨_, ?_, hattained e.target⟩⟩
    exact hw.le_strataAfter.trans hviolated.2
  · rintro (hover' | ⟨b, e, he, hneg, hmatched⟩)
    · exact absurd hover' hover
    · obtain ⟨w', hle, hwalk⟩ := hmatched _ (hattained b)
      have hviolated : strataAfter deps (rs.rules.length + 1) b ≤
          strataAfter deps (rs.rules.length + 1) e.target :=
        hle.trans hwalk.le_strataAfter
      exact ⟨b, e, he, by simp [hneg, hviolated]⟩

/-- `Stratify` keeps its promise exactly when no cycle has a negative edge or its passes
    come to know of one. -/
theorem stratify_correct_iff (rs : RuleSet) :
    StratifiesCorrectly rs ↔ ¬ NegativeCycle rs ∨ Noticed (dependencies rs.rules) := by
  by_cases hcycle : NegativeCycle rs
  · rw [← stratify_error_iff]
    refine ⟨fun h => .inr (h.1.mpr hcycle), fun h => ?_⟩
    obtain ⟨e, he⟩ := h.resolve_left (not_not_intro hcycle)
    exact ⟨iff_of_true ⟨e, he⟩ hcycle, fun strata hok => absurd (hok.symm.trans he) (by simp)⟩
  · refine iff_of_true ?_ (.inl hcycle)
    obtain ⟨strata, hok, hvalid⟩ := stratify_ok hcycle
    refine ⟨iff_of_false ?_ hcycle, fun strata' hok' => ?_⟩
    · rintro ⟨e, he⟩
      exact absurd (hok.symm.trans he) (by simp)
    · rw [hok, Except.ok.injEq] at hok'
      rw [← hok']
      exact hvalid

/-- `?x <p> ?y`. -/
def linkPattern (p : String) : SrlTriple :=
  ⟨.var "x", .iri p, .var "y"⟩

/-- `p` from `q` and not `r`, `r` from `s`, `s` from `t`, and `t` from `p`. -/
def roundRules : RuleSet :=
  ⟨[], [⟨[linkPattern "p"], [.triple (linkPattern "q"), .not [.triple (linkPattern "r")]]⟩,
    ⟨[linkPattern "r"], [.triple (linkPattern "s")]⟩,
    ⟨[linkPattern "s"], [.triple (linkPattern "t")]⟩,
    ⟨[linkPattern "t"], [.triple (linkPattern "p")]⟩]⟩

/-- A rule of the set. -/
def roundRule (i : Fin 4) : Fin roundRules.rules.length := i

/-- The last of the five passes stops where the negative edge happens to hold. -/
theorem roundRules_accepted :
    NegativeCycle roundRules ∧
      (stratify roundRules).map (List.map (List.map Fin.val)) = .ok [[], [1], [0, 2, 3]] := by
  refine ⟨⟨roundRule 0, ⟨roundRule 1, true⟩, by decide, rfl, ?_⟩, by decide⟩
  exact .head (b := roundRule 2) ⟨⟨roundRule 2, false⟩, by decide, rfl⟩
    (.head (b := roundRule 3) ⟨⟨roundRule 3, false⟩, by decide, rfl⟩
      (.head (b := roundRule 0) ⟨⟨roundRule 0, false⟩, by decide, rfl⟩ .refl))

end GoRdf
