import Mathlib.Data.Fintype.Card
import Mathlib.Logic.Relation

/-!
# Routes in Weighted Graphs

Routes in a directed graph whose edges carry natural numbers, with the vertices
they visit and their total weight. If no cycle gains weight, a route can be cut
short wherever it comes back to a vertex, so the weight of any route is that of
one that visits no vertex twice.

A potential drops along every edge by at least the edge's weight. It exists only
if no cycle gains weight.

## Main definitions

* `Route`: A route, with its vertices and its weight.
* `NoGain`: No cycle gains weight.
* `Potential`: A function that drops along every edge.

## Theorems

* `Route.exists_nodup`: Routes can be cut short.
* `Route.exists_gain`: A route of positive weight has an edge of positive weight.
-/

namespace GoRdf

open List Relation

namespace Lib

variable {V : Type} {E : V → V → ℕ → Prop} {u v : V} {p : List V} {w : ℕ}

/-- A route from one vertex to another, with the vertices it visits and its weight. -/
inductive Route (E : V → V → ℕ → Prop) : V → V → List V → ℕ → Prop
  | nil (v : V) : Route E v v [v] 0
  | cons {u x v : V} {p : List V} {m w : ℕ} (e : E u x m) (h : Route E x v p w) :
      Route E u v (u :: p) (m + w)

/-- No cycle has a positive weight. -/
def NoGain (E : V → V → ℕ → Prop) : Prop :=
  ∀ v p w, Route E v v p w → w = 0

/-- There is an edge of some weight. -/
def Adj (E : V → V → ℕ → Prop) (u v : V) : Prop :=
  ∃ m, E u v m

namespace Route

/-- A route can be split at a vertex it visits. -/
theorem split {x : V} (h : Route E x v p w) (hu : u ∈ p) :
    ∃ q w₁ r w₂, Route E x u q w₁ ∧ Route E u v r w₂ ∧ w₁ + w₂ = w ∧ r <:+ p := by
  induction h with
  | nil v =>
    rw [mem_singleton.mp hu]
    exact ⟨[v], 0, [v], 0, .nil v, .nil v, rfl, suffix_rfl⟩
  | @cons x y v p m w e h ih =>
    rcases mem_cons.mp hu with rfl | hu
    · exact ⟨[u], 0, u :: p, m + w, .nil u, .cons e h, Nat.zero_add _, suffix_rfl⟩
    · obtain ⟨q, w₁, r, w₂, hq, hr, hw, hsuf⟩ := ih hu
      exact ⟨x :: q, m + w₁, r, w₂, .cons e hq, hr, by omega,
        hsuf.trans (suffix_cons x p)⟩

/-- If no cycle gains, the weight of a route is that of one without repetitions. -/
theorem exists_nodup (hgain : NoGain E) (h : Route E u v p w) :
    ∃ p', Route E u v p' w ∧ p'.Nodup := by
  induction h with
  | nil v => exact ⟨[v], .nil v, nodup_singleton v⟩
  | @cons u x v p m w e h ih =>
    obtain ⟨p', hp', hnodup⟩ := ih
    by_cases hu : u ∈ p'
    · -- The route comes back to its start, and the cycle up to there weighs nothing.
      obtain ⟨q, w₁, r, w₂, hq, hr, hw, hsuf⟩ := hp'.split hu
      have hzero := hgain u _ _ (.cons e hq)
      refine ⟨r, ?_, hnodup.sublist hsuf.sublist⟩
      have hweight : m + w = w₂ := by omega
      rw [hweight]
      exact hr
    · exact ⟨u :: p', .cons e hp', nodup_cons.mpr ⟨hu, hnodup⟩⟩

/-- If edges weigh at most one, a route weighs less than it visits. -/
theorem weight_lt (hone : ∀ u v m, E u v m → m ≤ 1) (h : Route E u v p w) : w < p.length := by
  induction h with
  | nil v => exact Nat.one_pos
  | cons e h ih =>
    have hm := hone _ _ _ e
    rw [length_cons]
    omega

theorem length_pos (h : Route E u v p w) : 0 < p.length := by
  cases h with
  | nil => exact Nat.one_pos
  | cons e h => exact Nat.succ_pos _

/-- Where there is a route, there is a chain of edges. -/
theorem reach (h : Route E u v p w) : ReflTransGen (Adj E) u v := by
  induction h with
  | nil v => exact .refl
  | @cons u x v p m w e h ih => exact .head ⟨m, e⟩ ih

/-- A route of positive weight has an edge of positive weight. -/
theorem exists_gain (h : Route E u v p w) (hw : 0 < w) :
    ∃ x y m, 0 < m ∧ E x y m ∧ ReflTransGen (Adj E) u x ∧ ReflTransGen (Adj E) y v := by
  induction h with
  | nil v => exact absurd hw (Nat.lt_irrefl 0)
  | @cons u x v p m w e h ih =>
    by_cases hm : 0 < m
    · exact ⟨u, x, m, hm, e, .refl, h.reach⟩
    · obtain ⟨a, b, k, hk, hab, ha, hb⟩ := ih (by omega)
      exact ⟨a, b, k, hk, hab, .head ⟨m, e⟩ ha, hb⟩

/-- A chain of edges is a route. -/
theorem of_reach (h : ReflTransGen (Adj E) u v) : ∃ p w, Route E u v p w := by
  induction h using ReflTransGen.head_induction_on with
  | refl => exact ⟨[v], 0, .nil v⟩
  | @head u x e h ih =>
    obtain ⟨m, hm⟩ := e
    obtain ⟨p, w, hp⟩ := ih
    exact ⟨u :: p, m + w, .cons hm hp⟩

end Route

/-- A cycle gains exactly if it has an edge of positive weight. -/
theorem not_noGain_iff : ¬ NoGain E ↔ ∃ x y m, 0 < m ∧ E x y m ∧ ReflTransGen (Adj E) y x := by
  constructor
  · intro h
    simp only [NoGain, not_forall] at h
    obtain ⟨v, p, w, hroute, hw⟩ := h
    obtain ⟨x, y, m, hm, e, hx, hy⟩ := hroute.exists_gain (Nat.pos_of_ne_zero hw)
    exact ⟨x, y, m, hm, e, hy.trans hx⟩
  · rintro ⟨x, y, m, hm, e, hback⟩ hgain
    obtain ⟨p, w, hroute⟩ := Route.of_reach hback
    have hzero := hgain x _ _ (.cons e hroute)
    omega

/-- A function that drops along every edge by at least its weight. -/
def Potential (E : V → V → ℕ → Prop) (s : V → ℕ) : Prop :=
  ∀ u v m, E u v m → s v + m ≤ s u

end Lib

end GoRdf
